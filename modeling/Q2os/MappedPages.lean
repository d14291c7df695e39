import Q2os.AccountRuns
import Q2os.TablePaths

/- The exact change that one page more makes to a page table in which no table is shared. -/
namespace AddressSpace
open Bitmap PageAllocator PageRuns Kmalloc KmallocPages HeapInvariant KmallocSlots KmallocSlabs
  KmallocSafety PageRules PageUse SlabCache TableTree Run

variable {boot : Nat → Prop} {otherPages : List Nat} {otherBlocks : List (Nat × Nat)}

theorem taken_marks {a a' : Account} (sound : Sound boot otherPages otherBlocks a)
    (taken : TakenFrom a a') (p : Nat) (marked : bit a.heap.g.bitsMap p = true) :
    bit a'.heap.g.bitsMap p = true := by
  obtain ⟨es, run⟩ := taken
  induction run with
  | nil => exact marked
  | @cons a a₁ a₂ e es step _ ih =>
    obtain ⟨step, takes⟩ := step
    refine ih (other_step_sound sound step) ?_
    cases step with
    | kmalloc call =>
      obtain ⟨⟨h, address⟩, called, made⟩ := Option.map_eq_some_iff.mp call
      cases made
      exact kmalloc_marks _ _ _ _ _ _ _ sound.toInv called p marked
    | kfree => exact takes.elim
    | allocPages call =>
      unfold allocPage at call
      generalize requested : allocPages a.heap.g zoneNormal 1 = r at call
      obtain ⟨g, found⟩ := r
      cases found with
      | none => cases call
      | some page =>
        cases call
        rw [(alloc_one sound.pages requested).bits p, marked, ite_self]
    | freePages => exact takes.elim

theorem link_page_free {k k' : Kernel} {tmp p : Nat}
    (sound : Sound boot otherPages otherBlocks k.account)
    (call : linkPage k tmp = some (k', pageSize * p)) :
    bit k.account.heap.g.bitsMap p = false ∧ bit k'.account.heap.g.bitsMap p = true := by
  obtain ⟨⟨a, page⟩, taken, made⟩ := Option.map_eq_some_iff.mp call
  obtain ⟨-, -, -, address⟩ := alloc_page_spec sound taken
  simp only [address, Prod.mk.injEq] at made
  obtain ⟨rfl, place⟩ := made
  have same : page = p := Nat.eq_of_mul_eq_mul_left (by decide) place
  subst same
  unfold allocPage at taken
  generalize requested : allocPages k.account.heap.g zoneNormal 1 = r at taken
  obtain ⟨g, found⟩ := r
  cases found with
  | none => cases taken
  | some page =>
    cases taken
    have takes := alloc_one sound.pages requested
    refine ⟨takes.free, ?_⟩
    rw [takes.bits, if_pos rfl]

section
variable {k k' : Kernel} {pgd : Nat} {level : Nat → List Nat}

/-- A table that is there or new changes no address. -/
theorem ensure_table_paths (sound : Sound boot otherPages otherBlocks k.account)
    (space : Space k pgd level) (unshared : Unshared format k.memory pgd) {n t i : Nat}
    (deep : n < 2) (listed : t ∈ level n) (within : i < format.fan n)
    (call : ensureTable k (slot t i) = some k') :
    Unshared format k'.memory pgd ∧ ∀ path, path.length = 3 → Within format 0 path →
      walk k'.memory path pgd = walk k.memory path pgd := by
  have keeps : ∀ path, path.length = 3 → Within format 0 path → ∀ u,
      walk k.memory path pgd = some u → walk k'.memory path pgd = some u :=
    fun path long inside u walked =>
      ensure_table_keeps sound space call (Nat.le_of_eq long) inside walked
  unfold ensureTable at call
  by_cases empty : k.memory (slot t i) = 0
  · rw [if_pos empty] at call
    obtain ⟨u, kept, aligned, _, blocks, memory⟩ := link_table_made sound call
    have fresh : ∀ m < 3, u ∉ level m := fun m low old =>
      fresh_table kept blocks (space.tables m low u old) rfl
    have same := clear_same space aligned fresh
    have tree := space.tree.frame format_ok same
    have inner := inner_level deep
    have wide := format_ok.fan (n + 1) inner
    have cleared : ∀ j < format.fan (n + 1), clearWords k.memory u 512 (slot u j) = 0 :=
      fun j small => clear_own _ (by omega)
    have tag : format.tag n = pageUserDir := if_neg (by omega)
    rw [← tag] at memory
    constructor
    · rw [memory]
      exact (unshared.frame format_ok space.tree space.pgd_listed same).table format_ok tree space.pgd_listed inner
        listed within aligned (fun m low => fresh m low) cleared
    · intro path long inside
      refine Option.ext fun w => ⟨fun walked => ?_, keeps path long inside w⟩
      have depth : path.length ≤ format.depth := Nat.le_of_eq long
      rw [memory] at walked
      rcases tree.link_table format_ok space.pgd_listed inner listed within aligned (fresh n (by omega))
        cleared depth inside walked with old | ⟨pre, rfl, short, -, -⟩
      · have framed := @walk_frame _ _ _ _ format_ok space.tree same path 0 pgd
          (by rw [Nat.zero_add]; exact depth) inside space.pgd_listed
        exact framed.symm.trans old
      · rw [List.length_append, List.length_singleton] at long
        omega
  · rw [if_neg empty] at call
    cases call
    exact ⟨unshared, fun path _ _ => rfl⟩

theorem link_page_paths (sound : Sound boot otherPages otherBlocks k.account)
    (space : Space k pgd level) (unshared : Unshared format k.memory pgd) {t i phy : Nat}
    {pre : List Nat} (listed : t ∈ level 2) (within : i < 512) (short : pre.length = 2)
    (inside : Within format 0 pre) (here : walk k.memory pre pgd = some t)
    (empty : k.memory (slot t i) = 0) (call : linkPage k (slot t i) = some (k', phy)) :
    Unshared format k'.memory pgd ∧ ∀ path, path.length = 3 → Within format 0 path →
      walk k'.memory path pgd = if path = pre ++ [i] then some phy else walk k.memory path pgd := by
  obtain ⟨p, rfl, _, _, _, memory⟩ := link_page_made sound call
  have memory : k'.memory =
      Function.update k.memory (slot t i) (pageSize * p + format.tag 2) := memory
  have depth : 2 + 1 = format.depth := rfl
  constructor
  · rw [memory]
    exact unshared.leaf format_ok space.tree space.pgd_listed depth listed within (page_aligned p)
  · intro path long inside_path
    by_cases new : path = pre ++ [i]
    · rw [if_pos new, new]
      have first : walk k'.memory pre pgd = some t := by
        rw [memory]
        exact walk_kept empty here
      have odd : (pageSize * p + format.tag 2) % 2 ≠ 0 := by
        have tag : format.tag 2 = 0x87 := rfl
        rw [tag]
        unfold pageSize
        omega
      refine walk_snoc first ?_
      rw [walk, memory, Function.update_self, if_neg odd, walk,
        base_entry (page_aligned p) (format_ok.tag 2 (by decide)).2]
    · rw [if_neg new]
      refine Option.ext fun w => ⟨fun walked => ?_, fun walked => ?_⟩
      · rw [memory] at walked
        rcases space.tree.link_leaf format_ok space.pgd_listed depth listed within (page_aligned p)
          (Nat.le_of_eq long) inside_path walked with old | ⟨pre', rfl, short', there, -⟩
        · exact old
        · have same := unshared pre' pre t (by rw [short']; decide) (by rw [short]; decide)
            (within_append inside_path).1 inside there here
          exact absurd (by rw [same]) new
      · rw [memory]
        exact walk_kept empty walked

theorem path_same {v w : Nat} (user : v < userEnd) (user' : w < userEnd) :
    pathOf w = pathOf v ↔ w / pageSize = v / pageSize := by
  unfold pathOf gdtIndex index1G index2M
  unfold userEnd at user user'
  unfold pageSize
  simp only [List.cons.injEq, and_true]
  omega

/-- What the mapping of one page changes: nothing if it was there, else its addresses lead to a
page that was free. -/
inductive Adds (k k' : Kernel) (pgd v : Nat) : Prop where
  | old {q : Nat} (there : mapping k.memory pgd v = some q)
      (same : ∀ w, mapping k'.memory pgd w = mapping k.memory pgd w)
  | new {p : Nat} (absent : mapping k.memory pgd v = none)
      (free : bit k.account.heap.g.bitsMap p = false)
      (marked : bit k'.account.heap.g.bitsMap p = true)
      (added : ∀ w, mapping k'.memory pgd w =
        if w < userEnd ∧ w / pageSize = v / pageSize then some (pageSize * p)
        else mapping k.memory pgd w)

theorem mapping_of_walk {memory memory' : TableTree.Words} {root : Nat}
    (same : ∀ path, path.length = 3 → Within format 0 path →
      walk memory' path root = walk memory path root) (base_root : base root = root) (w : Nat) :
    mapping memory' root w = mapping memory root w := by
  unfold mapping
  split
  · next user =>
    rw [base_root]
    exact same _ rfl (path_within user)
  · rfl

/-- The tables on the way to an address, once they are there: no address is mapped by them. -/
theorem tables_reached {k₁ k₂ : Kernel} {v : Nat}
    (sound : Sound boot otherPages otherBlocks k.account) (space : Space k pgd level)
    (unshared : Unshared format k.memory pgd) (user : v < userEnd)
    (first : ensureTable k (slotOf pgd (gdtIndex v)) = some k₁)
    (second : ensureTable k₁ (slotOf (k₁.memory (slotOf pgd (gdtIndex v))) (index1G v)) = some k₂) :
    ∃ t level₂, Sound boot otherPages otherBlocks k₂.account ∧ Space k₂ pgd level₂ ∧
      Unshared format k₂.memory pgd ∧ t ∈ level₂ 2 ∧
      walk k₂.memory [gdtIndex v, index1G v] pgd = some t ∧
      slotOf (k₂.memory (slotOf (k₁.memory (slotOf pgd (gdtIndex v))) (index1G v))) (index2M v) =
        slot t (index2M v) ∧
      ∀ w, mapping k₂.memory pgd w = mapping k.memory pgd w := by
  obtain ⟨small₁, small₂, -⟩ := index_within user
  have root : slotOf pgd (gdtIndex v) = slot pgd (gdtIndex v) := by
    rw [slotOf, space.pgd_base]
  rw [root] at first second ⊢
  obtain ⟨level₁, sound₁, space₁, listed₁⟩ :=
    @ensure_table_spec _ _ _ _ _ _ _ sound space 0 pgd _ (by omega) space.pgd_listed small₁ first
  obtain ⟨unshared₁, paths₁⟩ := @ensure_table_paths _ _ _ _ _ _ _ sound space unshared 0 pgd _
    (by omega) space.pgd_listed small₁ first
  obtain ⟨level₂, sound₂, space₂, listed₂⟩ :=
    @ensure_table_spec _ _ _ _ _ _ _ sound₁ space₁ 1 _ _ (by omega) listed₁ small₂ second
  obtain ⟨unshared₂, paths₂⟩ := @ensure_table_paths _ _ _ _ _ _ _ sound₁ space₁ unshared₁ 1 _ _
    (by omega) listed₁ small₂ second
  have step₂ := tables_walk sound sound₁ space₁ space₂ user first second
  refine ⟨_, level₂, sound₂, space₂, unshared₂, listed₂, step₂, rfl, ?_⟩
  refine mapping_of_walk (fun path long inside => ?_) space.pgd_base
  rw [paths₂ path long inside, paths₁ path long inside]

theorem mapping_last {memory : TableTree.Words} {t v : Nat} (user : v < userEnd)
    (base_root : base pgd = pgd) (reached : walk memory [gdtIndex v, index1G v] pgd = some t) :
    mapping memory pgd v = walk memory [index2M v] t := by
  have cut := walk_append memory [gdtIndex v, index1G v] [index2M v] pgd
  rw [reached, Option.bind_some] at cut
  unfold mapping
  rw [if_pos user, base_root]
  exact cut

/-- One page more, or none for want of a page. -/
theorem map_page_exact {v : Nat} {ok : Bool} (sound : Sound boot otherPages otherBlocks k.account)
    (space : Space k pgd level) (unshared : Unshared format k.memory pgd) (user : v < userEnd)
    (call : mapPage k pgd v = some (k', ok)) :
    Unshared format k'.memory pgd ∧
      (ok = false → ∀ w, mapping k'.memory pgd w = mapping k.memory pgd w) ∧
      (ok = true → Adds k k' pgd v) := by
  obtain ⟨small₁, small₂, small₃⟩ := index_within user
  unfold mapPage at call
  obtain ⟨k₁, first, call⟩ := Option.bind_eq_some_iff.mp call
  obtain ⟨k₂, second, call⟩ := Option.bind_eq_some_iff.mp call
  obtain ⟨t, level₂, sound₂, space₂, unshared₂, listed₂, reached, place, same₂⟩ :=
    tables_reached sound space unshared user first second
  have tables := taken_trans (ensure_table_taken first) (ensure_table_taken second)
  have at_v := mapping_last user space.pgd_base reached
  dsimp only at call
  rw [place] at call
  split at call
  · next empty =>
    have absent : mapping k.memory pgd v = none := by
      rw [← same₂, at_v, walk, empty, if_pos rfl]
    cases linked : linkPage k₂ (slot t (index2M v)) with
    | none =>
      rw [linked] at call
      cases call
      exact ⟨unshared₂, fun _ => same₂, fun done => absurd done Bool.false_ne_true⟩
    | some r =>
      obtain ⟨k₃, phy⟩ := r
      rw [linked] at call
      cases call
      obtain ⟨p, rfl, -⟩ := link_page_made sound₂ linked
      have within₂ : Within format 0 [gdtIndex v, index1G v] := ⟨small₁, small₂, trivial⟩
      obtain ⟨unshared₃, paths₃⟩ := link_page_paths sound₂ space₂ unshared₂ listed₂ small₃ rfl
        within₂ reached empty linked
      obtain ⟨free, marked⟩ := link_page_free sound₂ linked
      refine ⟨unshared₃, fun fails => absurd fails.symm Bool.false_ne_true, fun _ => .new absent ?_ marked fun w => ?_⟩
      · rw [← Bool.not_eq_true] at free ⊢
        exact fun before => free (taken_marks sound tables p before)
      · by_cases below : w < userEnd
        · have at_w := paths₃ (pathOf w) rfl (path_within below)
          have path_v : [gdtIndex v, index1G v] ++ [index2M v] = pathOf v := rfl
          simp only [path_v, path_same user below] at at_w
          simp only [below, true_and, ← same₂ w]
          unfold mapping
          rw [if_pos below, if_pos below, space.pgd_base]
          exact at_w
        · unfold mapping
          simp only [below, false_and, if_false]
  · next full =>
    have there := @entry_walks _ _ _ space₂ 2 _ _ (by omega) listed₂ small₃ full
    rw [← at_v, same₂] at there
    cases call
    exact ⟨unshared₂, fun fails => absurd fails.symm Bool.false_ne_true, fun _ => .old there same₂⟩

/- A word in none of the tables of 4096 bytes that the process holds. -/
def Aside (k : Kernel) (x : Nat) : Prop :=
  ∀ t, (physToVirt t, tableBytes) ∈ k.account.blocks → x < t ∨ t + tableBytes ≤ x

/-- Only tables of the process are written, and the kernel half of its pgd is not. -/
structure Frames (k k' : Kernel) (pgd : Nat) : Prop where
  blocks : ∀ e ∈ k.account.blocks, e ∈ k'.account.blocks
  aside : ∀ x, Aside k' x → k'.memory x = k.memory x
  upper : ∀ i, 256 ≤ i → i < 512 → k'.memory (slot pgd i) = k.memory (slot pgd i)

theorem Frames.refl (k : Kernel) (pgd : Nat) : Frames k k pgd :=
  ⟨fun _ member => member, fun _ _ => rfl, fun _ _ _ => rfl⟩

theorem Frames.trans {k'' : Kernel} (first : Frames k k' pgd) (rest : Frames k' k'' pgd) :
    Frames k k'' pgd := by
  refine ⟨fun e member => rest.blocks e (first.blocks e member), fun x aside => ?_, fun i low high => ?_⟩
  · have before : Aside k' x := fun t held => aside t (rest.blocks _ held)
    rw [rest.aside x aside, first.aside x before]
  · rw [rest.upper i low high, first.upper i low high]

theorem upper_slot (space : Space k pgd level) {n t i j : Nat} (deep : n < 3) (listed : t ∈ level n)
    (within : i < format.fan n) (high : 256 ≤ j) (small : j < 512) : slot pgd j ≠ slot t i := by
  have wide := format_ok.fan n deep
  by_cases same : t = pgd
  · subst same
    have zero : n = 0 := space.tree.separate n deep 0 (by decide) t listed space.pgd_listed
    subst zero
    have lower : i < 256 := within
    exact slot_index (by omega)
  · exact slot_ne (space.tree.aligned 0 (by decide) pgd space.pgd_listed)
      (space.tree.aligned n (Nat.le_of_lt deep) t listed) (Ne.symm same) small (by omega)

theorem entry_frames {x : Nat} (space : Space k pgd level) {n t i : Nat} (deep : n < 3)
    (listed : t ∈ level n) (within : i < format.fan n)
    (blocks : ∀ e ∈ k.account.blocks, e ∈ k'.account.blocks)
    (memory : k'.memory = Function.update k.memory (slot t i) x) : Frames k k' pgd := by
  have wide := format_ok.fan n deep
  refine ⟨blocks, fun y aside => ?_, fun j high small => ?_⟩
  · have held := blocks _ (space.tables n deep t listed)
    rw [memory, Function.update_of_ne (slot_outside (aside t held) (by omega))]
  · rw [memory, Function.update_of_ne (upper_slot space deep listed within high small)]

theorem ensure_table_frames (sound : Sound boot otherPages otherBlocks k.account)
    (space : Space k pgd level) {n t i : Nat} (deep : n < 2) (listed : t ∈ level n)
    (within : i < format.fan n) (call : ensureTable k (slot t i) = some k') : Frames k k' pgd := by
  unfold ensureTable at call
  split at call
  · obtain ⟨u, kept, aligned, _, blocks, memory⟩ := link_table_made sound call
    have held : (physToVirt u, tableBytes) ∈ k'.account.blocks := by
      rw [blocks]
      exact List.mem_cons_self
    have more : ∀ e ∈ k.account.blocks, e ∈ k'.account.blocks := by
      intro e member
      rw [blocks]
      exact List.mem_cons_of_mem _ member
    have fresh : ∀ m < 3, u ∉ level m := fun m low old =>
      fresh_table kept blocks (space.tables m low u old) rfl
    have wide := format_ok.fan n (by change n < 3; omega)
    refine ⟨more, fun x aside => ?_, fun j high small => ?_⟩
    · have table := more _ (space.tables n (by omega) t listed)
      rw [memory, Function.update_of_ne (slot_outside (aside t table) (by omega))]
      exact clear_outside _ (aside u held)
    · have differ : u ≠ pgd := fun same => fresh 0 (by omega) (same ▸ space.pgd_listed)
      rw [memory, Function.update_of_ne (upper_slot space (by omega) listed within high small)]
      exact clear_apart _ (space.tree.aligned 0 (by decide) pgd space.pgd_listed) aligned differ.symm small
  · cases call
    exact .refl k pgd

theorem map_page_frames {v : Nat} {ok : Bool} (sound : Sound boot otherPages otherBlocks k.account)
    (space : Space k pgd level) (user : v < userEnd) (call : mapPage k pgd v = some (k', ok)) :
    Frames k k' pgd := by
  obtain ⟨small₁, small₂, small₃⟩ := index_within user
  unfold mapPage at call
  obtain ⟨k₁, first, call⟩ := Option.bind_eq_some_iff.mp call
  have root : slotOf pgd (gdtIndex v) = slot pgd (gdtIndex v) := by
    rw [slotOf, space.pgd_base]
  rw [root] at first call
  obtain ⟨level₁, sound₁, space₁, listed₁⟩ :=
    @ensure_table_spec _ _ _ _ _ _ _ sound space 0 pgd _ (by omega) space.pgd_listed small₁ first
  have frames₁ := @ensure_table_frames _ _ _ _ _ _ _ sound space 0 pgd _ (by omega)
    space.pgd_listed small₁ first
  obtain ⟨k₂, second, call⟩ := Option.bind_eq_some_iff.mp call
  obtain ⟨level₂, sound₂, space₂, listed₂⟩ :=
    @ensure_table_spec _ _ _ _ _ _ _ sound₁ space₁ 1 _ _ (by omega) listed₁ small₂ second
  have frames₂ := @ensure_table_frames _ _ _ _ _ _ _ sound₁ space₁ 1 _ _ (by omega) listed₁
    small₂ second
  have tables := frames₁.trans frames₂
  dsimp only at call
  split at call
  · split at call
    · cases call
      exact tables
    · next k₃ phy linked =>
      cases call
      obtain ⟨p, _, _, _, blocks, memory⟩ := link_page_made sound₂ linked
      refine tables.trans (entry_frames space₂ (by decide : 2 < 3) listed₂ small₃ ?_ memory)
      intro e member
      rw [blocks]
      exact member
  · cases call
    exact tables

/-- Addresses of the kernel half whose tables are none of the process keep their translation. -/
theorem Frames.upper_walk (frames : Frames k k' pgd)
    (sound : Sound boot otherPages otherBlocks k'.account) {v : Nat} (high : 256 ≤ gdtIndex v)
    (foreign : ∀ t ∈ (tablesOn k.memory (pathOf v) pgd).tail,
      (physToVirt t, tableBytes) ∉ k'.account.blocks) :
    walk k'.memory (pathOf v) pgd = walk k.memory (pathOf v) pgd := by
  have small : gdtIndex v < 512 := Nat.mod_lt _ (by decide)
  have small₂ : index1G v < 512 := Nat.mod_lt _ (by decide)
  have small₃ : index2M v < 512 := Nat.mod_lt _ (by decide)
  have first := frames.upper _ high small
  unfold pathOf at foreign ⊢
  have cut : ∀ memory : TableTree.Words, walk memory [gdtIndex v, index1G v, index2M v] pgd =
      if memory (slot pgd (gdtIndex v)) % 2 = 0 then none
      else walk memory [index1G v, index2M v] (base (memory (slot pgd (gdtIndex v)))) :=
    fun _ => rfl
  rw [cut, cut, first]
  split
  · rfl
  · next present =>
    rw [tablesOn, if_neg present, List.tail_cons] at foreign
    refine walk_unread fun t member i index => ?_
    have table : Aligned t := tablesOn_aligned _ _ member
    have index_small : i < 512 := by
      simp only [List.mem_cons, List.not_mem_nil, or_false] at index
      rcases index with rfl | rfl
      · exact small₂
      · exact small₃
    refine frames.aside _ fun u held => ?_
    have place := (table_place sound.toInv (List.mem_append_left _ held)).1
    have differ : t ≠ u := fun same => foreign t member (same ▸ held)
    have apart := aligned_apart table place differ
    unfold slot
    unfold tableBytes at *
    omega

end

end AddressSpace

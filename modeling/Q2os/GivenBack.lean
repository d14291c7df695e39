import Q2os.AccountRuns

/- The life of a child from do_fork without CLONE_VM to sys_wait4, with calls of sys_brk between:
   whether its parent is left with the pages and blocks from before. -/
namespace AddressSpace
open Bitmap PageAllocator PageRuns Kmalloc KmallocPages HeapInvariant KmallocSlabs KmallocSafety
  PageRules PageUse SlabInit SlabCache TableTree Run

structure Life where
  kernel : Kernel
  child : Task

inductive BrkStep : Life → Nat → Life → Prop where
  | brk {l : Life} {n r : Nat} {k : Kernel} {mm : Mm}
      (call : sysBrk l.kernel l.child.mm n = some (k, mm, r)) :
      BrkStep l n ⟨k, { l.child with mm := mm }⟩

/-- The pages that are marked in use and in no slab of kmalloc are those from before, and so are
the blocks. -/
def GivenBack (k k' : Kernel) : Prop :=
  (∀ p, InUse k'.account.heap p ↔ InUse k.account.heap p) ∧
    ∀ e, e ∈ k'.account.blocks ↔ e ∈ k.account.blocks

/- A call of sys_brk that takes nothing: it asks for no more than there is, or there is no page. -/
def Allowed (l : Life) (n : Nat) : Prop :=
  page2MAlign n ≤ l.child.mm.endBrk ∨ (allocPages l.kernel.account.heap.g zoneNormal 1).2 = none

variable {boot : Nat → Prop} {otherPages : List Nat} {otherBlocks : List (Nat × Nat)}
  {k k' : Kernel}

theorem track_now {a : Account} (sound : Sound boot otherPages otherBlocks a) :
    ∃ area, Tracked area otherBlocks a ∧ ∀ p, boot p → area p := by
  have inv := sound.toInv
  have wider : ∀ p, boot p → InUse a.heap p ∧ p ∉ a.pages := fun p set_aside =>
    ⟨inv.reserved p (Or.inl set_aside), fun held =>
      inv.apart p (List.mem_append_left _ held) set_aside⟩
  have bytes : ∀ x n, BootBytes boot x n → BootBytes (fun p => InUse a.heap p ∧ p ∉ a.pages) x n :=
    fun x n inside y within => ⟨(inside y within).1, wider _ (inside y within).2⟩
  refine ⟨fun p => InUse a.heap p ∧ p ∉ a.pages, ⟨⟨?_, trivial⟩, ?_⟩, wider⟩
  · rw [List.append_nil]
    refine { inv with
      reserved := fun p held => ?_
      apart := fun p held set_aside => set_aside.2 held
      pending_nodup := (List.nodup_append.mp inv.pending_nodup).1
      pending_mapped := fun p held => inv.pending_mapped p (List.mem_append_left _ held)
      boot_struct := fun i hi => bytes _ _ (inv.boot_struct i hi)
      boot_map := fun i hi => bytes _ _ (inv.boot_map i hi) }
    rcases held with set_aside | held
    · exact set_aside.1
    · exact inv.reserved p (Or.inr (List.mem_append_left _ held))
  · intro p marked
    by_cases slab : ∃ i < 16, ∃ s ∈ ring a.heap i, (a.heap.slab s).page = p
    · exact Or.inr (Or.inr slab)
    · by_cases held : p ∈ a.pages
      · exact Or.inr (Or.inl held)
      · exact Or.inl ⟨⟨marked, fun i hi s listed same => slab ⟨i, hi, s, listed, same⟩⟩, held⟩

theorem given_back_iff (before : Tracked boot otherBlocks k.account)
    (after : Tracked boot otherBlocks k'.account) : GivenBack k k' ↔
      (∀ p, p ∈ k'.account.pages ↔ p ∈ k.account.pages) ∧
        ∀ e, e ∈ k'.account.blocks ↔ e ∈ k.account.blocks := by
  have use : ∀ {k : Kernel}, Tracked boot otherBlocks k.account → ∀ p,
      (InUse k.account.heap p ↔ boot p ∨ p ∈ k.account.pages) ∧ (p ∈ k.account.pages → ¬ boot p) := by
    intro k tracked p
    have inv := tracked.sound.toInv
    rw [List.append_nil] at inv
    exact ⟨in_use_iff inv tracked.known p, inv.apart p⟩
  refine and_congr_left fun _ => forall_congr' fun p => ?_
  obtain ⟨first, apart⟩ := use before p
  obtain ⟨second, apart'⟩ := use after p
  rw [first, second]
  tauto

section
variable {address pgd pdpt pdt p : Nat} {fresh : List Nat} {last : Nat → Nat} {k₀ : Kernel}

theorem table_not_first {a : Account} {t : Nat} (sound : Sound boot otherPages otherBlocks a)
    (first : boot 0) (held : (physToVirt t, tableBytes) ∈ a.blocks) : t ≠ 0 := by
  have inv := sound.toInv
  obtain ⟨i, s, j, block⟩ := inv.occupied _ (List.mem_append_left _ (List.mem_append_left _ held))
  have ok := inv.slab_ok i block.cache s block.listed
  have other := (inv.reserved 0 (Or.inl first)).2 i block.cache s block.listed
  have address := block.address
  rw [ok.mapped] at address
  unfold physToVirt pageSize at address
  dsimp only at address
  omega

theorem give_block_some {a : Account} {start n x o : Nat}
    (tracked : Tracked boot otherBlocks a) (held : (start, n) ∈ a.blocks) (place : x = start + o)
    (inside : o < n) : ∃ a', giveInside a x = some a' ∧ Tracked boot otherBlocks a' ∧
      a'.pages = a.pages ∧ a'.blocks = a.blocks.erase (start, n) := by
  obtain ⟨a', given, _, pages, blocks⟩ := give_block_spec (no_rule _ _).drop tracked.sound held
  have eq : giveInside a x = giveBlock a start := by
    rw [place]
    exact give_inside_eq tracked.sound held inside
  exact ⟨a', eq.trans given, other_step_tracked tracked (.kfree held given), pages, blocks⟩

/-- exit_mm on a space that copy_mm has made gives back its page of the code, its tables and
its mm. -/
theorem exit_mm_built {child : Task} {stack : Nat × Nat} {rest : List (Nat × Nat)}
    (tracked : Tracked boot otherBlocks k.account) (first : boot 0)
    (built : Built k₀ k child.mm.address child.mm.pgd pdpt pdt fresh last)
    (before : k₀.account.blocks = stack :: rest) (plain : child.flags &&& pfVfork = 0)
    (code : last 4 = pageEntry p) (new : p ∈ fresh) :
    ∃ a, exitMm k child = some a ∧ Tracked boot otherBlocks a ∧ a.blocks = stack :: rest ∧
      a.pages = k.account.pages.erase p := by
  have placed := built.placed tracked.sound
  have at_pgd : slotOf child.mm.pgd (gdtIndex codeStart) = slot child.mm.pgd 0 := by
    rw [slotOf, base_aligned (placed.aligned child.mm.pgd (by simp))]
    rfl
  have entry₄ : k.memory (slot child.mm.pgd 0) = pdpt + pageUserDir := by
    rw [built.root 0 (by omega), if_pos rfl]
  have at_pdpt : slotOf (k.memory (slot child.mm.pgd 0)) (index1G codeStart) = slot pdpt 0 := by
    rw [entry₄, slotOf_table (placed.aligned pdpt (by simp)) (by decide)]
    rfl
  have entry₃ : k.memory (slot pdpt 0) = pdt + pageUserDir := by
    rw [built.second 0 (by omega), if_pos rfl]
  have at_pdt : slotOf (k.memory (slot pdpt 0)) (index2M codeStart) = slot pdt 4 := by
    rw [entry₃, slotOf_table (placed.aligned pdt (by simp)) (by decide)]
    rfl
  have entry₂ : k.memory (slot pdt 4) / pageSize = p := by
    rw [built.third 4 (by omega), code]
    unfold pageEntry pageSize pageUserPage
    omega
  have all : k.account.blocks =
      spaceBlocks child.mm.address child.mm.pgd pdpt pdt ++ stack :: rest := by
    rw [built.blocks, before]
  have held : p ∈ k.account.pages := by
    rw [built.pages]
    exact List.mem_append_left _ new
  obtain ⟨a₁, freed, _, _, pages₁, blocks₁⟩ := free_page_inv tracked.sound.toInv held
  have tracked₁ := other_step_tracked tracked (.freePages held freed)
  rw [all] at blocks₁
  have inside : pageUserDir < tableBytes := by decide
  have virtual : ∀ t, physToVirt (t + pageUserDir) = physToVirt t + pageUserDir := by
    intro t
    unfold physToVirt
    omega
  obtain ⟨a₂, given₂, tracked₂, pages₂, blocks₂⟩ := @give_block_some _ _ _ (physToVirt pdt)
    tableBytes _ pageUserDir tracked₁ (by rw [blocks₁]; simp [spaceBlocks]) (virtual pdt) inside
  rw [blocks₁, spaceBlocks, List.cons_append, List.erase_cons_head] at blocks₂
  obtain ⟨a₃, given₃, tracked₃, pages₃, blocks₃⟩ := @give_block_some _ _ _ (physToVirt pdpt)
    tableBytes _ pageUserDir tracked₂ (by rw [blocks₂]; simp) (virtual pdpt) inside
  rw [blocks₂, List.cons_append, List.erase_cons_head] at blocks₃
  obtain ⟨a₄, given₄, tracked₄, pages₄, blocks₄⟩ := @give_block_some _ _ _
    (physToVirt child.mm.pgd) tableBytes _ 0 tracked₃ (by rw [blocks₃]; simp)
    (Nat.add_zero _).symm (by decide)
  rw [blocks₃, List.cons_append, List.erase_cons_head] at blocks₄
  obtain ⟨a₅, given₅, tracked₅, pages₅, blocks₅⟩ := @give_block_some _ _ _ child.mm.address
    mmBytes _ 0 tracked₄ (by rw [blocks₄]; simp)
    (Nat.add_zero _).symm (by decide)
  rw [blocks₄, List.cons_append, List.erase_cons_head, List.nil_append] at blocks₅
  have pgd_held : (physToVirt child.mm.pgd, tableBytes) ∈ k.account.blocks := by
    rw [all]
    simp [spaceBlocks]
  refine ⟨a₅, ?_, tracked₅, blocks₅, ?_⟩
  · unfold exitMm exitTables
    dsimp only
    rw [if_neg (not_not.mpr plain), if_pos (table_not_first tracked.sound first pgd_held), at_pgd,
      at_pdpt, at_pdt, entry₂, freed, entry₃, entry₄]
    dsimp only [Option.bind_eq_bind, Option.bind_some]
    rw [given₂]
    dsimp only [Option.bind_some]
    rw [given₃]
    dsimp only [Option.bind_some]
    rw [given₄]
    exact given₅
  · rw [pages₅, pages₄, pages₃, pages₂, pages₁]

/-- sys_wait4 gives everything back but pages beside that of the code. -/
theorem wait_built {child : Task} {rest : List (Nat × Nat)}
    (tracked : Tracked boot otherBlocks k.account) (first : boot 0)
    (built : Built k₀ k child.mm.address child.mm.pgd pdpt pdt fresh last)
    (before : k₀.account.blocks = (child.address, stackSize) :: rest)
    (plain : child.flags &&& pfVfork = 0) (code : last 4 = pageEntry p) (new : p ∈ fresh) :
    ∃ k', waitChild k child = some k' ∧ Tracked boot otherBlocks k'.account ∧
      k'.account.blocks = rest ∧ k'.account.pages = k.account.pages.erase p := by
  obtain ⟨a₅, left, tracked₅, blocks₅, pages₅⟩ :=
    exit_mm_built tracked first built before plain code new
  obtain ⟨a₆, given, tracked₆, pages₆, blocks₆⟩ := @give_block_some _ _ _ child.address
    stackSize _ 0 tracked₅ (by rw [blocks₅]; simp)
    (Nat.add_zero _).symm (by decide)
  rw [blocks₅, List.erase_cons_head] at blocks₆
  refine ⟨{ k with account := a₆ }, ?_, tracked₆, blocks₆, pages₆.trans pages₅⟩
  unfold waitChild
  rw [left]
  dsimp only [Option.bind_eq_bind, Option.bind_some]
  rw [given]
  rfl

end

/-- The first page of the heap of a new space: its tables are there, and it is not. -/
theorem map_first {address pgd pdpt pdt : Nat} {fresh : List Nat} {last : Nat → Nat} {k₀ : Kernel}
    (built : Built k₀ k address pgd pdpt pdt fresh last) (placed : Placed pgd pdpt pdt)
    (empty : last 6 = 0) : mapPage k pgd brkStart =
      match linkPage k (slot pdt 6) with
      | none => some (k, false)
      | some (k, _) => some (k, true) := by
  have at_pgd : slotOf pgd (gdtIndex brkStart) = slot pgd 0 := by
    rw [slotOf, base_aligned (placed.aligned pgd (by simp))]
    rfl
  have entry₄ : k.memory (slot pgd 0) = pdpt + pageUserDir := by
    rw [built.root 0 (by omega), if_pos rfl]
  have at_pdpt : slotOf (k.memory (slot pgd 0)) (index1G brkStart) = slot pdpt 0 := by
    rw [entry₄, slotOf_table (placed.aligned pdpt (by simp)) (by decide)]
    rfl
  have entry₃ : k.memory (slot pdpt 0) = pdt + pageUserDir := by
    rw [built.second 0 (by omega), if_pos rfl]
  have at_pdt : slotOf (k.memory (slot pdpt 0)) (index2M brkStart) = slot pdt 6 := by
    rw [entry₃, slotOf_table (placed.aligned pdt (by simp)) (by decide)]
    rfl
  have full : ∀ t, t + pageUserDir ≠ 0 := by
    intro t
    unfold pageUserDir
    omega
  have first : ensureTable k (slot pgd 0) = some k :=
    if_neg (entry₄.symm ▸ full pdpt)
  have second : ensureTable k (slot pdpt 0) = some k :=
    if_neg (entry₃.symm ▸ full pdt)
  unfold mapPage
  dsimp only
  rw [at_pgd, first]
  dsimp only [Option.bind_eq_bind, Option.bind_some]
  rw [at_pdpt, second]
  dsimp only [Option.bind_some]
  rw [at_pdt, built.third 6 (by omega), if_pos empty]
  cases linkPage k (slot pdt 6) with
  | none => rfl
  | some r => rfl

theorem brk_run_taken {l l' : Life} {brks : List Nat} (run : Steps BrkStep l brks l') :
    TakenFrom l.kernel.account l'.kernel.account := by
  induction run with
  | nil => exact taken_refl _
  | cons step _ ih =>
    cases step with
    | brk call => exact taken_trans (sys_brk_taken call) ih

theorem taken_longer {a a' : Account} (sound : Sound boot otherPages otherBlocks a)
    (taken : TakenFrom a a') : a.pages.length ≤ a'.pages.length := by
  obtain ⟨_, pages, _, grown⟩ := taken_grows sound taken
  rw [grown, List.length_append]
  omega

def withBrk (child : Task) (e : Nat) : Task := { child with mm := { child.mm with endBrk := e } }

def Idle (k : Kernel) (child : Task) (l : Life) : Prop :=
  ∃ e, (e = brkStart ∨ e = minusENOMEM) ∧ l = ⟨k, withBrk child e⟩

theorem align_below (n : Nat) : page2MAlign n < minusENOMEM := by
  unfold page2MAlign pageSize minusENOMEM
  omega

section
variable {child : Task} {pdpt pdt : Nat} {fresh : List Nat} {last : Nat → Nat} {k₀ : Kernel}

/-- A call of sys_brk takes a page, or it is one that may take nothing and does not. -/
theorem idle_step {l l' : Life} {n : Nat} (sound : Sound boot otherPages otherBlocks k.account)
    (built : Built k₀ k child.mm.address child.mm.pgd pdpt pdt fresh last) (empty : last 6 = 0)
    (idle : Idle k child l) (step : BrkStep l n l') : (Allowed l n → Idle k child l') ∧
      (¬ Allowed l n → k.account.pages.length < l'.kernel.account.pages.length) := by
  obtain ⟨e, which, rfl⟩ := idle
  cases step with
  | brk call =>
    have same : ∀ {k' mm}, k' = k → mm = (withBrk child e).mm →
        Idle k child ⟨k', { withBrk child e with mm := mm }⟩ := by
      rintro k' mm rfl rfl
      exact ⟨e, which, rfl⟩
    have within : (withBrk child e).mm.endBrk = e := rfl
    unfold sysBrk at call
    dsimp only at call
    unfold Allowed
    dsimp only
    rw [within] at call ⊢
    split at call
    · next zero =>
      cases call
      refine ⟨fun _ => same rfl rfl, fun asks => absurd (Or.inl ?_) asks⟩
      omega
    · split at call
      · cases call
        refine ⟨fun _ => same rfl rfl, fun asks => absurd (Or.inl ?_) asks⟩
        omega
      · obtain ⟨⟨k₁, r⟩, grown, made⟩ := Option.map_eq_some_iff.mp call
        cases made
        unfold doBrk at grown
        by_cases more : page2MAlign n ≤ e
        · have none_asked : (page2MAlign n - e + pageSize - 1) / pageSize = 0 := by
            unfold pageSize
            omega
          rw [none_asked] at grown
          cases grown
          exact ⟨fun _ => same rfl rfl, fun asks => absurd (Or.inl more) asks⟩
        · have start : e = brkStart := by
            have below := align_below n
            omega
          have some_asked : ∃ m, (page2MAlign n - e + pageSize - 1) / pageSize = m + 1 := by
            refine ⟨(page2MAlign n - e + pageSize - 1) / pageSize - 1, ?_⟩
            unfold pageSize
            omega
          obtain ⟨m, count⟩ := some_asked
          have user : brkStart < userEnd := by decide
          have pgd : (withBrk child e).mm.pgd = child.mm.pgd := rfl
          rw [count, start, brkPages, if_pos user, ← start, pgd, start,
            map_first built (built.placed sound) empty] at grown
          cases linked : linkPage k (slot pdt 6) with
          | none =>
            rw [linked] at grown
            cases grown
            refine ⟨fun _ => ⟨minusENOMEM, Or.inr rfl, rfl⟩, fun asks => absurd (Or.inr ?_) asks⟩
            unfold linkPage allocPage at linked
            split at linked
            · next none_left => rw [none_left]
            · cases linked
          | some r =>
            obtain ⟨k₂, phy⟩ := r
            rw [linked] at grown
            obtain ⟨⟨k₃, ok⟩, here, grown⟩ := Option.bind_eq_some_iff.mp grown
            cases here
            obtain ⟨p, _, sound₂, pages₂, _⟩ := link_page_made sound linked
            have rest := taken_longer sound₂ (brk_pages_taken grown)
            rw [pages₂, List.length_cons] at rest
            refine ⟨fun allowed => ?_, fun _ => rest⟩
            rcases allowed with small | none_left
            · exact absurd small more
            · unfold linkPage allocPage at linked
              split at linked
              · cases linked
              · next found =>
                rw [found] at none_left
                cases none_left

theorem idle_run {l l' : Life} {brks : List Nat}
    (sound : Sound boot otherPages otherBlocks k.account)
    (built : Built k₀ k child.mm.address child.mm.pgd pdpt pdt fresh last) (empty : last 6 = 0)
    (idle : Idle k child l) (run : Steps BrkStep l brks l')
    (short : l'.kernel.account.pages.length ≤ k.account.pages.length) :
    Steps (Guarded Allowed BrkStep) l brks l' := by
  induction run with
  | nil => exact .nil _
  | @cons l l₁ l' n brks step run ih =>
    obtain ⟨stays, takes⟩ := idle_step sound built empty idle step
    by_cases allowed : Allowed l n
    · exact .cons ⟨step, allowed⟩ (ih (stays allowed) short)
    · have more := takes allowed
      have sound₁ : Sound boot otherPages otherBlocks l₁.kernel.account := by
        obtain ⟨e, _, rfl⟩ := idle
        cases step with
        | brk call =>
          obtain ⟨es, taken⟩ := sys_brk_taken call
          exact @invariant_of_step _ _ _ (Sound boot otherPages otherBlocks)
            (fun _ _ _ before step => other_step_sound before step.1) _ _ _ taken sound
      have later := taken_longer sound₁ (brk_run_taken run)
      omega

theorem idle_guarded {l l' : Life} {brks : List Nat}
    (sound : Sound boot otherPages otherBlocks k.account)
    (built : Built k₀ k child.mm.address child.mm.pgd pdpt pdt fresh last) (empty : last 6 = 0)
    (idle : Idle k child l) (run : Steps (Guarded Allowed BrkStep) l brks l') : Idle k child l' :=
  @invariant_of_step _ _ _ (Idle k child)
    (fun _ _ _ before step => (idle_step sound built empty before step.1).1 step.2) _ _ _ run idle

end

/-- What a do_fork without CLONE_VM leaves. -/
structure Forked (area : Nat → Prop) (otherBlocks : List (Nat × Nat)) (k k' : Kernel)
    (t child : Task) (pdpt pdt p : Nat) (fresh : List Nat) (last : Nat → Nat) (k₀ : Kernel) :
    Prop where
  before : Tracked area otherBlocks k.account
  after : Tracked area otherBlocks k'.account
  first : area 0
  stack : k₀.account.blocks = (child.address, stackSize) :: k.account.blocks
  pages : k₀.account.pages = k.account.pages
  built : Built k₀ k' child.mm.address child.mm.pgd pdpt pdt fresh last
  flags : child.flags = t.flags
  end_brk : child.mm.endBrk = t.mm.endBrk
  code : last 4 = pageEntry p
  new : p ∈ fresh
  empty : t.mm.endBrk = t.mm.startBrk → fresh = [p] ∧ last 6 = 0
  heap : t.mm.endBrk ≠ t.mm.startBrk → fresh.length = 2

theorem forked_of_ready {s : System} {k : Kernel} {child : Task} (ready : Ready boot s)
    (zero : boot 0) (call : doFork s.kernel s.task false = some (k, some child)) :
    ∃ area pdpt pdt p fresh last k₀,
      Forked area s.otherBlocks s.kernel k s.task child pdpt pdt p fresh last k₀ := by
  obtain ⟨level, space⟩ := ready.space
  obtain ⟨area, tracked, wider⟩ := track_now ready.sound
  have after := taken_tracked tracked (do_fork_taken call)
  obtain ⟨k₀, sound, _, pages, _, stack, flags, copied⟩ := do_fork_spec tracked.sound space call
  obtain ⟨pdpt, pdt, p, _, cases⟩ := copy_mm_spec sound copied
  rcases cases with ⟨empty, made, _⟩ | ⟨some_heap, h, made, _⟩
  · exact ⟨area, pdpt, pdt, p, [p], codeEntry p, k₀, tracked, after, wider 0 zero, stack, pages,
      made.built, flags, made.end_brk, code_entry_code p, List.mem_singleton.mpr rfl,
      fun _ => ⟨rfl, code_entry_above p (by decide)⟩, fun differ => absurd empty differ⟩
  · exact ⟨area, pdpt, pdt, p, [h, p], heapEntry p h, k₀, tracked, after, wider 0 zero, stack, pages,
      made.built, flags, made.end_brk, heap_entry_code p h, by simp,
      fun none_heap => absurd none_heap some_heap, fun _ => rfl⟩

theorem brk_run_flags {l l' : Life} {brks : List Nat} (run : Steps BrkStep l brks l') :
    l'.child.flags = l.child.flags := by
  induction run with
  | nil => rfl
  | cons step _ ih =>
    cases step with
    | brk call => exact ih

theorem same_length {α : Type} {xs ys : List α} (first : xs.Nodup) (second : ys.Nodup)
    (same : ∀ x, x ∈ xs ↔ x ∈ ys) : xs.length = ys.length :=
  ((List.perm_ext_iff_of_nodup first second).mpr same).length_eq

section
variable {s : System} {k : Kernel} {child : Task} {l : Life} {brks : List Nat}

theorem allowed_of_given_back (ready : Ready boot s) (zero : boot 0)
    (call : doFork s.kernel s.task false = some (k, some child))
    (life : Steps BrkStep ⟨k, child⟩ brks l) {k' : Kernel}
    (waited : waitChild l.kernel l.child = some k') (back : GivenBack s.kernel k') :
    s.task.flags &&& pfVfork = 0 ∧ s.task.mm.endBrk = s.task.mm.startBrk ∧
      Steps (Guarded Allowed BrkStep) ⟨k, child⟩ brks l := by
  obtain ⟨area, pdpt, pdt, p, fresh, last, k₀, forked⟩ := forked_of_ready ready zero call
  have grown := brk_run_taken life
  have tracked := taken_tracked forked.after grown
  obtain ⟨tracked', _, less, vforked⟩ := wait_less tracked waited
  obtain ⟨same_pages, _⟩ := (given_back_iff forked.before tracked').mp back
  have length := same_length tracked'.sound.pages_nodup forked.before.sound.pages_nodup same_pages
  have longer := taken_longer forked.after.sound grown
  have count : k.account.pages.length = fresh.length + s.kernel.account.pages.length := by
    rw [forked.built.pages, List.length_append, forked.pages]
  have positive : 0 < fresh.length := List.length_pos_of_mem forked.new
  have flags : l.child.flags = s.task.flags := (brk_run_flags life).trans forked.flags
  have no_heap : s.task.mm.endBrk = s.task.mm.startBrk := by
    by_contra some_heap
    have two := forked.heap some_heap
    omega
  obtain ⟨one, empty⟩ := forked.empty no_heap
  have plain : s.task.flags &&& pfVfork = 0 := by
    by_contra vfork
    rw [vforked (flags ▸ vfork)] at length
    omega
  have idle : Idle k child ⟨k, child⟩ :=
    ⟨child.mm.endBrk, Or.inl (forked.end_brk.trans (no_heap.trans ready.start)), rfl⟩
  refine ⟨plain, no_heap, idle_run forked.after.sound forked.built empty idle life ?_⟩
  rw [one, List.length_singleton] at count
  omega

theorem given_back_of_allowed (ready : Ready boot s) (zero : boot 0)
    (call : doFork s.kernel s.task false = some (k, some child))
    (plain : s.task.flags &&& pfVfork = 0) (no_heap : s.task.mm.endBrk = s.task.mm.startBrk)
    (life : Steps (Guarded Allowed BrkStep) ⟨k, child⟩ brks l) :
    ∃ k', waitChild l.kernel l.child = some k' ∧ GivenBack s.kernel k' := by
  obtain ⟨area, pdpt, pdt, p, fresh, last, k₀, forked⟩ := forked_of_ready ready zero call
  obtain ⟨one, empty⟩ := forked.empty no_heap
  have idle : Idle k child ⟨k, child⟩ :=
    ⟨child.mm.endBrk, Or.inl (forked.end_brk.trans (no_heap.trans ready.start)), rfl⟩
  obtain ⟨e, _, rfl⟩ := idle_guarded forked.after.sound forked.built empty idle life
  obtain ⟨k', waited, tracked', blocks, pages⟩ := @wait_built _ _ _ _ _ _ _ _ _
    (withBrk child e) _ forked.after forked.first forked.built forked.stack
    (forked.flags ▸ plain) forked.code forked.new
  have all : k.account.pages = p :: s.kernel.account.pages := by
    rw [forked.built.pages, forked.pages, one]
    rfl
  rw [all, List.erase_cons_head] at pages
  refine ⟨k', waited, (given_back_iff forked.before tracked').mpr ⟨fun q => ?_, fun b => ?_⟩⟩
  · rw [pages]
  · rw [blocks]

end

/-- After any run of the parent, a child that forks off, calls sys_brk any number of times, exits
and is waited for leaves the parent with the pages and blocks from before exactly when the parent
is no PF_VFORK child and has no heap and the calls of sys_brk ask for nothing or find no page. -/
theorem gives_back_iff (b : Machine) (bootable : Bootable b) (s₀ s : System) (es : List Event)
    (start : Start b s₀) (run : Steps Step s₀ es s) (k : Kernel) (child : Task)
    (call : doFork s.kernel s.task false = some (k, some child)) (brks : List Nat) (l : Life)
    (life : Steps BrkStep ⟨k, child⟩ brks l) :
    (∃ k', waitChild l.kernel l.child = some k' ∧ GivenBack s.kernel k') ↔
      s.task.flags &&& pfVfork = 0 ∧ s.task.mm.endBrk = s.task.mm.startBrk ∧
        Steps (Guarded Allowed BrkStep) ⟨k, child⟩ brks l := by
  have ready := run_ready bootable start run
  have zero : bootInUse b 0 := BootPages.first_page_reserved bootable
  constructor
  · rintro ⟨k', waited, back⟩
    exact allowed_of_given_back ready zero call life waited back
  · rintro ⟨plain, no_heap, guarded⟩
    exact given_back_of_allowed ready zero call plain no_heap guarded

/- A parent without a heap, and a child that asks for the start of its heap. -/
theorem given_back_no_heap : ∃ s₀ s k child l k', Start machine128 s₀ ∧
    Steps Step s₀ [.brk (brkStart + pageSize * 0)] s ∧
    doFork s.kernel s.task false = some (k, some child) ∧ Steps BrkStep ⟨k, child⟩ [0] l ∧
    waitChild l.kernel l.child = some k' ∧ GivenBack s.kernel k' := by
  obtain ⟨s₀, s, k, child, start, run, forked, first, last, plain⟩ := @fork_after_brk 0 (by decide)
    ⟨by decide +kernel, by decide +kernel, by decide +kernel, by decide +kernel⟩
  have zero : page2MAlign 0 = 0 := by decide
  have asked : sysBrk k child.mm 0 = some (k, child.mm, child.mm.startBrk) := by
    unfold sysBrk
    dsimp only
    rw [zero, if_pos rfl]
  have step : BrkStep ⟨k, child⟩ 0 ⟨k, child⟩ := .brk asked
  have allowed : Allowed ⟨k, child⟩ 0 := Or.inl (zero ▸ Nat.zero_le _)
  obtain ⟨k', waited, back⟩ := (gives_back_iff machine128 HeapRuns.machine128_bootable s₀ s _ start
    run k child forked [0] ⟨k, child⟩ (steps_single step)).mpr
    ⟨plain, last.trans first.symm, steps_single ⟨step, allowed⟩⟩
  exact ⟨s₀, s, k, child, _, k', start, run, forked, steps_single step, waited, back⟩

/- A parent with a heap of one page: the child's copy of it is never given back. -/
theorem heap_page_left : ∃ s₀ s k child k', Start machine128 s₀ ∧
    Steps Step s₀ [.brk (brkStart + pageSize * 1)] s ∧
    doFork s.kernel s.task false = some (k, some child) ∧ waitChild k child = some k' ∧
    ¬ GivenBack s.kernel k' := by
  obtain ⟨s₀, s, k, child, start, run, forked, first, last, plain⟩ := @fork_after_brk 1 (by decide)
    ⟨by decide +kernel, by decide +kernel, by decide +kernel, by decide +kernel⟩
  have ready := run_ready HeapRuns.machine128_bootable start run
  have zero : bootInUse machine128 0 := BootPages.first_page_reserved HeapRuns.machine128_bootable
  obtain ⟨area, pdpt, pdt, p, fresh, entries, k₀, made⟩ := forked_of_ready ready zero forked
  obtain ⟨k', waited, _⟩ := wait_built made.after made.first made.built made.stack
    (made.flags ▸ plain) made.code made.new
  refine ⟨s₀, s, k, child, k', start, run, forked, waited, fun back => ?_⟩
  have no_heap := (allowed_of_given_back ready zero forked (.nil _) waited back).2.1
  rw [first, last] at no_heap
  exact absurd no_heap (by decide)

end AddressSpace

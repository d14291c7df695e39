import Q2os.BrkFailure
import Q2os.KmallocFailure
import Q2os.Process

/- do_fork where memory runs out at one of the allocations that it and copy_mm make. -/
namespace AddressSpace
open PageAllocator PageRuns Kmalloc KmallocSlabs KmallocSafety SlabInit PageRules SlabCache
  TableTree Run

def EAGAIN : Int := 6

/- A read or a store through NULL, also the one that kmalloc itself can end in, and a read of a
   user address that is not mapped. -/
inductive Stop where
  | null
  | unmapped

def orStop {α : Type} (stop : Stop) : Option α → Except Stop α
  | some a => .ok a
  | none => .error stop

def copyMmOrStop (k : Kernel) (current : Mm) : Except Stop (Kernel × Mm) := do
  let (k, address) ← orStop .null (takeMm k)
  let (k, pgd) ← orStop .null (takeTable k)
  let k := clearUserSpace (copyKernelSpace k pgd) pgd
  let tmp := slotOf pgd (gdtIndex codeStart)
  let k ← orStop .null (linkTable k tmp)
  let tmp := slotOf (k.memory tmp) (index1G codeStart)
  let k ← orStop .null (linkTable k tmp)
  let tmp := slotOf (k.memory tmp) (index2M codeStart)
  let (k, page) ← orStop .null (linkPage k tmp)
  let k ← orStop .unmapped (copyPage k current.pgd codeStart page)
  let newmm := { current with address := address, pgd := pgd }
  if current.endBrk ≠ current.startBrk then do
    let (k, page) ← orStop .null (linkPage k (slotAt k.memory pgd brkStart))
    let k ← orStop .unmapped (copyPage k current.pgd brkStart page)
    return (k, newmm)
  else return (k, newmm)

structure Forker where
  kernel : Kernel
  task : Task
  processes : Process.Kernel

/- do_fork with its return value. Before copy_mm the new task is in the list already. -/
def doForkOrStop (s : Forker) (cloneVm : Bool) : Except Stop (Forker × Int) := do
  match ← orStop .null (takeBlock s.kernel.account stackSize) with
  | (a, none) =>
    -- alloc_copy_task_fail: kfree(NULL)
    let (heap, _) ← orStop .null (kfree a.heap 0)
    return ({ s with kernel := { s.kernel with account := { a with heap := heap } } }, -EAGAIN)
  | (a, some tsk) =>
    let k := { s.kernel with account := a }
    let pid : Int := s.processes.globalPid
    if cloneVm then
      return ({ s with kernel := k, processes := Process.doFork s.processes tsk }, pid)
    else
      let (k, _) ← copyMmOrStop k s.task.mm
      return ({ s with kernel := k, processes := Process.doFork s.processes tsk }, pid)

def forget {α : Type} : Except Stop α → Option α
  | .ok a => some a
  | .error _ => none

theorem forget_bind {α β : Type} (x : Except Stop α) (f : α → Except Stop β) :
    forget (x >>= f) = (forget x).bind fun a => forget (f a) := by
  cases x with
  | ok a => rfl
  | error stop => rfl

theorem forget_or_stop {α : Type} (stop : Stop) (x : Option α) : forget (orStop stop x) = x := by
  cases x with
  | some a => rfl
  | none => rfl

/-- But for what stops it, this is copy_mm. -/
theorem copy_mm_forget (k : Kernel) (current : Mm) :
    forget (copyMmOrStop k current) = copyMm k current := by
  unfold copyMmOrStop copyMm
  simp only [forget_bind, forget_or_stop, Option.bind_eq_bind]
  congr 1
  funext mm
  congr 1
  funext pgd
  congr 1
  funext k₁
  congr 1
  funext k₂
  congr 1
  funext page
  congr 1
  funext k₃
  by_cases grown : current.endBrk ≠ current.startBrk
  · rw [if_pos grown, if_pos grown]
    simp only [forget_bind, forget_or_stop]
    rfl
  · rw [if_neg grown, if_neg grown]
    rfl

inductive Request where
  | task
  | mm
  | pgd
  | pdpt
  | pdt
  | codePage
  | heapPage

/-- do_fork comes to a call, with this account: what it has asked for before it has got. -/
inductive Asks (s : Forker) : Bool → Request → Account → Prop where
  | task (cloneVm : Bool) : Asks s cloneVm .task s.kernel.account
  | mm {a a' : Account} {tsk : Nat} (asked : Asks s false .task a)
      (taken : takeBlock a stackSize = some (a', some tsk)) : Asks s false .mm a'
  | pgd {a a' : Account} {mm : Nat} (asked : Asks s false .mm a)
      (taken : takeBlock a mmBytes = some (a', some mm)) : Asks s false .pgd a'
  | pdpt {a a' : Account} {pgd : Nat} (asked : Asks s false .pgd a)
      (taken : takeBlock a tableBytes = some (a', some pgd)) : Asks s false .pdpt a'
  | pdt {a a' : Account} {pdpt : Nat} (asked : Asks s false .pdpt a)
      (taken : takeBlock a tableBytes = some (a', some pdpt)) : Asks s false .pdt a'
  | codePage {a a' : Account} {pdt : Nat} (asked : Asks s false .pdt a)
      (taken : takeBlock a tableBytes = some (a', some pdt)) : Asks s false .codePage a'
  | heapPage {a a' : Account} {p : Nat} (asked : Asks s false .codePage a)
      (taken : allocPage a = some (a', p)) (heap : s.task.mm.endBrk ≠ s.task.mm.startBrk) :
      Asks s false .heapPage a'

def NoBlock (a : Account) (size : Nat) : Prop := ∀ a' b, takeBlock a size ≠ some (a', some b)

def Lacks : Request → Account → Prop
  | .task, a => NoBlock a stackSize
  | .mm, a => NoBlock a mmBytes
  | .pgd, a => NoBlock a tableBytes
  | .pdpt, a => NoBlock a tableBytes
  | .pdt, a => NoBlock a tableBytes
  | .codePage, a => allocPage a = none
  | .heapPage, a => allocPage a = none

def RunsOut (s : Forker) (cloneVm : Bool) : Prop := ∃ r a, Asks s cloneVm r a ∧ Lacks r a

/-- do_fork returns an error code, and the list and the queue of tasks, the pages and the blocks
are as before. -/
def Atomic (s : Forker) (cloneVm : Bool) : Prop :=
  ∃ s' r, doForkOrStop s cloneVm = .ok (s', r) ∧ r < 0 ∧
    Process.nextTask s'.processes = Process.nextTask s.processes ∧
    s'.processes.runQueue = s.processes.runQueue ∧
    s'.kernel.account.pages = s.kernel.account.pages ∧
    s'.kernel.account.blocks = s.kernel.account.blocks

/-- The cache of the task_structs is empty and there is no page for it. -/
def NoStack (a : Account) : Prop :=
  a.heap.totalFree (sizeClass stackSize) = 0 ∧ (allocPages a.heap.g zoneNormal 1).2 = none

section found
variable {k k' : Kernel}

theorem take_mm_block {address : Nat} (call : takeMm k = some (k', address)) :
    takeBlock k.account mmBytes = some (k'.account, some address) := by
  unfold takeMm at call
  split at call
  · next taken =>
    cases call
    exact taken
  · cases call

theorem take_table_block {t : Nat} (call : takeTable k = some (k', t)) :
    ∃ virtual, takeBlock k.account tableBytes = some (k'.account, some virtual) := by
  unfold takeTable at call
  split at call
  · next taken =>
    cases call
    exact ⟨_, taken⟩
  · cases call

theorem link_table_block {tmp : Nat} (call : linkTable k tmp = some k') :
    ∃ virtual, takeBlock k.account tableBytes = some (k'.account, some virtual) := by
  obtain ⟨⟨k₁, t⟩, taken, made⟩ := Option.map_eq_some_iff.mp call
  have block := take_table_block taken
  rw [← made]
  exact block

theorem link_page_alloc {tmp phy : Nat} (call : linkPage k tmp = some (k', phy)) :
    ∃ p, allocPage k.account = some (k'.account, p) := by
  obtain ⟨⟨a, p⟩, taken, made⟩ := Option.map_eq_some_iff.mp call
  cases made
  exact ⟨p, taken⟩

/- What a copy_mm that comes to its end has found, call by call. -/
structure CopyFound (a : Account) (current : Mm) where
  withMm : Account
  withPgd : Account
  withPdpt : Account
  withPdt : Account
  withPage : Account
  mm : ∃ b, takeBlock a mmBytes = some (withMm, some b)
  pgd : ∃ b, takeBlock withMm tableBytes = some (withPgd, some b)
  pdpt : ∃ b, takeBlock withPgd tableBytes = some (withPdpt, some b)
  pdt : ∃ b, takeBlock withPdpt tableBytes = some (withPdt, some b)
  codePage : ∃ p, allocPage withPdt = some (withPage, p)
  heapPage : current.endBrk ≠ current.startBrk → allocPage withPage ≠ none

theorem copied_found {mm mm' : Mm} (call : copyMm k mm = some (k', mm')) :
    Nonempty (CopyFound k.account mm) := by
  obtain ⟨⟨k₁, address⟩, step₁, call⟩ := Option.bind_eq_some_iff.mp call
  obtain ⟨⟨k₂, pgd⟩, step₂, call⟩ := Option.bind_eq_some_iff.mp call
  dsimp only at call
  obtain ⟨k₃, step₃, call⟩ := Option.bind_eq_some_iff.mp call
  obtain ⟨k₄, step₄, call⟩ := Option.bind_eq_some_iff.mp call
  obtain ⟨⟨k₅, page⟩, step₅, call⟩ := Option.bind_eq_some_iff.mp call
  obtain ⟨k₆, step₆, call⟩ := Option.bind_eq_some_iff.mp call
  have third := link_table_block step₃
  refine ⟨⟨k₁.account, k₂.account, k₃.account, k₄.account, k₅.account, ⟨_, take_mm_block step₁⟩,
    take_table_block step₂, third, link_table_block step₄, link_page_alloc step₅,
    fun grown refused => ?_⟩⟩
  rw [if_pos grown] at call
  obtain ⟨⟨k₇, page'⟩, step₇, _⟩ := Option.bind_eq_some_iff.mp call
  obtain ⟨p, found⟩ := link_page_alloc step₇
  rw [copy_page_account step₆, refused] at found
  cases found

theorem found_block {a a' : Account} {size : Nat} (found : ∃ b, takeBlock a size = some (a', some b)) :
    ¬ NoBlock a size := by
  obtain ⟨b, taken⟩ := found
  exact fun lacks => lacks _ _ taken

theorem taken_same {a b c : Account} {size x : Nat} (found : ∃ b', takeBlock a size = some (b, some b'))
    (taken : takeBlock a size = some (c, some x)) : c = b := by
  obtain ⟨_, found⟩ := found
  rw [found] at taken
  cases taken
  rfl

theorem found_enough {s : Forker} {a₀ : Account} {r : Request} {a : Account}
    (first : ∃ b, takeBlock s.kernel.account stackSize = some (a₀, some b))
    (found : CopyFound a₀ s.task.mm) (asked : Asks s false r a) : ¬ Lacks r a := by
  have task : ∀ {a}, Asks s false .task a → a = s.kernel.account := fun asked => by
    cases asked
    rfl
  have mm : ∀ {a}, Asks s false .mm a → a = a₀ := fun asked => by
    cases asked with
    | mm asked taken => exact taken_same first (task asked ▸ taken)
  have pgd : ∀ {a}, Asks s false .pgd a → a = found.withMm := fun asked => by
    cases asked with
    | pgd asked taken => exact taken_same found.mm (mm asked ▸ taken)
  have pdpt : ∀ {a}, Asks s false .pdpt a → a = found.withPgd := fun asked => by
    cases asked with
    | pdpt asked taken => exact taken_same found.pgd (pgd asked ▸ taken)
  have pdt : ∀ {a}, Asks s false .pdt a → a = found.withPdpt := fun asked => by
    cases asked with
    | pdt asked taken => exact taken_same found.pdpt (pdpt asked ▸ taken)
  have codePage : ∀ {a}, Asks s false .codePage a → a = found.withPdt := fun asked => by
    cases asked with
    | codePage asked taken => exact taken_same found.pdt (pdt asked ▸ taken)
  cases r with
  | task => exact task asked ▸ found_block first
  | mm => exact mm asked ▸ found_block found.mm
  | pgd => exact pgd asked ▸ found_block found.pgd
  | pdpt => exact pdpt asked ▸ found_block found.pdpt
  | pdt => exact pdt asked ▸ found_block found.pdt
  | codePage =>
    obtain ⟨p, page⟩ := found.codePage
    rw [codePage asked]
    exact fun lacks => by
      rw [Lacks, page] at lacks
      cases lacks
  | heapPage =>
    obtain ⟨p, page⟩ := found.codePage
    cases asked with
    | heapPage asked taken heap =>
      rw [codePage asked, page] at taken
      cases taken
      exact found.heapPage heap

end found

section atomic
variable {boot : Nat → Prop} {otherPages : List Nat} {otherBlocks : List (Nat × Nat)} {a a' : Account}

theorem kfree_null (sound : Sound boot otherPages otherBlocks a) : kfree a.heap 0 = some (a.heap, 0) := by
  unfold kfree kfreeDepth kfreeBody
  cases found : findSlab a.heap (0 / pageSize * pageSize) 16 0 with
  | none => rfl
  | some r =>
    obtain ⟨i, s⟩ := r
    obtain ⟨small, listed, base⟩ := find_slab_some found
    have mapped := (sound.slab_ok i (by omega) s listed).mapped
    rw [base, Nat.zero_div, Nat.zero_mul] at mapped
    unfold physToVirt pageOffset at mapped
    omega

theorem stack_refused_iff (sound : Sound boot otherPages otherBlocks a) :
    (∃ a', takeBlock a stackSize = some (a', none)) ↔ NoStack a := by
  have small : stackSize ≤ 1048576 := by decide
  constructor
  · rintro ⟨a', refused⟩
    obtain ⟨⟨h, b⟩, call, made⟩ := Option.map_eq_some_iff.mp refused
    cases made
    refine ⟨?_, ?_⟩
    · by_contra free
      obtain ⟨a₁, b, taken, _⟩ := take_block_some sound small free
      rw [taken] at refused
      cases refused
    · exact ((kmalloc_spec _ _ _ _ _ _ _ sound.toInv call).2 rfl).resolve_left
        (Nat.not_lt.mpr small)
  · rintro ⟨full, none_left⟩
    refine ⟨a, ?_⟩
    unfold takeBlock
    rw [CleanRuns.kmalloc_refused small full none_left]
    rfl

theorem refused_same (sound : Sound boot otherPages otherBlocks a) {size : Nat}
    (refused : takeBlock a size = some (a', none)) : a' = a := by
  obtain ⟨⟨h, b⟩, call, made⟩ := Option.map_eq_some_iff.mp refused
  cases made
  rw [KmallocFailure.null_unchanged sound.toInv call]
  rfl

variable {s : Forker} {cloneVm : Bool}

/-- do_fork at the one failure that it looks for. -/
theorem no_stack_returns (sound : Sound boot otherPages otherBlocks s.kernel.account)
    (refused : takeBlock s.kernel.account stackSize = some (a', none)) :
    doForkOrStop s cloneVm = .ok (s, -EAGAIN) := by
  have same := refused_same sound refused
  subst same
  unfold doForkOrStop
  rw [refused]
  change (do
    let (heap, _) ← orStop .null (kfree s.kernel.account.heap 0)
    return ({ s with kernel := { s.kernel with account := { s.kernel.account with heap := heap } } },
      -EAGAIN) : Except Stop (Forker × Int)) = _
  rw [kfree_null sound]
  rfl

theorem asked_later {r : Request} (asked : Asks s cloneVm r a) (later : r ≠ .task) :
    cloneVm = false ∧ ∃ a₀ b, takeBlock s.kernel.account stackSize = some (a₀, some b) := by
  induction asked with
  | task => exact absurd rfl later
  | mm asked taken =>
    cases asked
    exact ⟨rfl, _, _, taken⟩
  | pgd _ _ ih => exact ih (fun same => by cases same)
  | pdpt _ _ ih => exact ih (fun same => by cases same)
  | pdt _ _ ih => exact ih (fun same => by cases same)
  | codePage _ _ ih => exact ih (fun same => by cases same)
  | heapPage _ _ _ ih => exact ih (fun same => by cases same)

/-- Every later call that gets nothing ends in a store through NULL. -/
theorem lacks_stops {r : Request} (later : r ≠ .task) (asked : Asks s cloneVm r a) (lacks : Lacks r a)
    (s' : Forker) (e : Int) : doForkOrStop s cloneVm ≠ .ok (s', e) := by
  obtain ⟨rfl, a₀, b, first⟩ := asked_later asked later
  intro returned
  unfold doForkOrStop at returned
  rw [first] at returned
  have copied : ∃ r, copyMmOrStop { s.kernel with account := a₀ } s.task.mm = .ok r := by
    cases made : copyMmOrStop { s.kernel with account := a₀ } s.task.mm with
    | ok r => exact ⟨r, rfl⟩
    | error stop =>
      dsimp only [orStop, Except.bind, bind] at returned
      rw [if_neg (by decide), made] at returned
      cases returned
  obtain ⟨⟨k, mm⟩, made⟩ := copied
  have copy := copy_mm_forget { s.kernel with account := a₀ } s.task.mm
  rw [made] at copy
  obtain ⟨found⟩ := copied_found copy.symm
  exact found_enough ⟨b, first⟩ found asked lacks

/-- do_fork fails as if it had not been called exactly where memory runs out for the task_struct:
the cache is empty, and there is no page. -/
theorem fork_atomic_iff (boot : Nat → Prop) (otherPages : List Nat) (otherBlocks : List (Nat × Nat))
    (s : Forker) (cloneVm : Bool) (sound : Sound boot otherPages otherBlocks s.kernel.account)
    (short : RunsOut s cloneVm) : Atomic s cloneVm ↔ NoStack s.kernel.account := by
  constructor
  · rintro ⟨s', e, returned, negative, -⟩
    obtain ⟨r, a, asked, lacks⟩ := short
    by_cases first : r = .task
    · subst first
      cases asked
      refine (stack_refused_iff sound).mp ?_
      unfold doForkOrStop at returned
      cases taken : takeBlock s.kernel.account stackSize with
      | none =>
        rw [taken] at returned
        cases returned
      | some found =>
        obtain ⟨a', b⟩ := found
        cases b with
        | none => exact ⟨a', rfl⟩
        | some b => exact absurd taken (lacks a' b)
    · exact absurd returned (lacks_stops first asked lacks s' e)
  · intro none_left
    obtain ⟨a', refused⟩ := (stack_refused_iff sound).mpr none_left
    exact ⟨s, -EAGAIN, no_stack_returns sound refused, by decide, rfl, rfl, rfl, rfl⟩

end atomic

theorem stocked_asks {boot : Nat → Prop} {otherPages : List Nat} {otherBlocks : List (Nat × Nat)}
    {s : Forker} (sound : Sound boot otherPages otherBlocks s.kernel.account)
    (stocked : Stocked s.kernel.account.heap 1 3 1 0)
    (none_left : (allocPages s.kernel.account.heap.g zoneNormal 1).2 = none) :
    ∃ a, Asks s false .codePage a ∧ allocPage a = none := by
  have class10 : sizeClass stackSize = 10 := by decide
  have class2 : sizeClass mmBytes = 2 := by decide
  have class7 : sizeClass tableBytes = 7 := by decide
  have many2 := stocked.mm
  have many7 := stocked.table
  have many10 := stocked.stack
  obtain ⟨a₁, b₁, step₁, slot₁⟩ := @take_block_some _ _ _ _ _ stackSize sound (by decide)
    (by rw [class10]; omega)
  have sound₁ := (take_block_spec (no_rule _ _) sound step₁).1
  rw [class10] at slot₁
  have left₁ := slot₁.away 2 (by decide)
  have rest₁ := slot₁.away 7 (by decide)
  obtain ⟨a₂, b₂, step₂, slot₂⟩ := @take_block_some _ _ _ _ _ mmBytes sound₁ (by decide)
    (by rw [class2]; omega)
  have sound₂ := (take_block_spec (no_rule _ _) sound₁ step₂).1
  rw [class2] at slot₂
  have rest₂ := slot₂.away 7 (by decide)
  obtain ⟨a₃, b₃, step₃, slot₃⟩ := @take_block_some _ _ _ _ _ tableBytes sound₂ (by decide)
    (by rw [class7]; omega)
  have sound₃ := (take_block_spec (no_rule _ _) sound₂ step₃).1
  rw [class7] at slot₃
  have rest₃ := slot₃.here
  obtain ⟨a₄, b₄, step₄, slot₄⟩ := @take_block_some _ _ _ _ _ tableBytes sound₃ (by decide)
    (by rw [class7]; omega)
  have sound₄ := (take_block_spec (no_rule _ _) sound₃ step₄).1
  rw [class7] at slot₄
  have rest₄ := slot₄.here
  obtain ⟨a₅, b₅, step₅, slot₅⟩ := @take_block_some _ _ _ _ _ tableBytes sound₄ (by decide)
    (by rw [class7]; omega)
  refine ⟨a₅, .codePage (.pdt (.pdpt (.pgd (.mm (.task false) step₁) step₂) step₃) step₄) step₅, ?_⟩
  unfold allocPage
  rw [slot₅.g, slot₄.g, slot₃.g, slot₂.g, slot₁.g]
  generalize allocPages s.kernel.account.heap.g zoneNormal 1 = r at none_left
  obtain ⟨g, q⟩ := r
  cases none_left
  rfl

theorem last_page_asks : ∃ s : System, Start machine128 s ∧
    ∃ a, Asks ⟨s.kernel, s.task, Process.boot⟩ false .codePage a ∧ Lacks .codePage a := by
  obtain ⟨s, _, _, _, _, _, start, _, _, _, _, none_left, stocked⟩ := started_last_page
  have ready := run_ready HeapRuns.machine128_bootable start (.nil s)
  exact ⟨s, start, @stocked_asks _ _ _ ⟨s.kernel, s.task, Process.boot⟩ ready.sound stocked none_left⟩

theorem fork_atomic_iff_last_page : ∃ s : System,
    RunsOut ⟨s.kernel, s.task, Process.boot⟩ false ∧
    (Atomic ⟨s.kernel, s.task, Process.boot⟩ false ↔ NoStack s.kernel.account) := by
  obtain ⟨s, start, a, asked, lacks⟩ := last_page_asks
  have ready := run_ready HeapRuns.machine128_bootable start (.nil s)
  have short : RunsOut ⟨s.kernel, s.task, Process.boot⟩ false := ⟨_, a, asked, lacks⟩
  exact ⟨s, short, fork_atomic_iff _ _ _ ⟨s.kernel, s.task, Process.boot⟩ false ready.sound short⟩

/-- There is no page for the code of the child: do_fork stores through NULL. -/
theorem page_missing_stops : ∃ s : System, Start machine128 s ∧
    RunsOut ⟨s.kernel, s.task, Process.boot⟩ false ∧
    (∀ s' e, doForkOrStop ⟨s.kernel, s.task, Process.boot⟩ false ≠ .ok (s', e)) ∧
    ¬ Atomic ⟨s.kernel, s.task, Process.boot⟩ false := by
  obtain ⟨s, start, a, asked, lacks⟩ := last_page_asks
  have stops := lacks_stops (fun same => by cases same) asked lacks
  refine ⟨s, start, ⟨_, a, asked, lacks⟩, stops, ?_⟩
  rintro ⟨s', e, returned, -⟩
  exact stops s' e returned

end AddressSpace

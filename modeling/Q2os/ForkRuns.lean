import Q2os.BootPages
import Q2os.SpaceSupply

/- Runs of a process from the first do_execve on, beside the rest of the kernel: what do_fork
   copies of its address space. -/
namespace AddressSpace
open PageAllocator PageRuns Kmalloc KmallocSlabs KmallocSafety SlabInit PageRules SlabCache TableTree
  Run

/- The rest of the kernel on the same heap, with what it holds. -/

inductive OtherCall where
  | kmalloc (size : Nat)
  | kfree (address : Nat)
  | allocPages
  | freePages (page : Nat)

inductive OtherStep : Account → OtherCall → Account → Prop where
  | kmalloc {a a' : Account} {size : Nat} {r : Option Nat}
      (call : takeBlock a size = some (a', r)) : OtherStep a (.kmalloc size) a'
  | kfree {a a' : Account} {e : Nat × Nat} (held : e ∈ a.blocks)
      (call : giveBlock a e.1 = some a') : OtherStep a (.kfree e.1) a'
  | allocPages {a a' : Account} {page : Nat} (call : allocPage a = some (a', page)) :
      OtherStep a .allocPages a'
  | freePages {a a' : Account} {page : Nat} (held : page ∈ a.pages)
      (call : freePage a page = some a') : OtherStep a (.freePages page) a'

/-- The process that is followed, and the blocks and pages that the rest of the kernel holds. -/
structure System where
  kernel : Kernel
  task : Task
  otherBlocks : List (Nat × Nat)
  otherPages : List Nat

def others (s : System) : Account := ⟨s.kernel.account.heap, s.otherBlocks, s.otherPages⟩

def withOthers (s : System) (a : Account) : System :=
  { s with
    kernel := { s.kernel with account := { s.kernel.account with heap := a.heap } }
    otherBlocks := a.blocks
    otherPages := a.pages }

def withOwn (s : System) (k : Kernel) (t : Task) (own otherBlocks : List (Nat × Nat))
    (ownPages otherPages : List Nat) : System :=
  ⟨{ k with account := ⟨k.account.heap, own, ownPages⟩ }, t, otherBlocks ++ s.otherBlocks,
    otherPages ++ s.otherPages⟩

/- The address space of a parent is left behind by a do_execve after CLONE_VM. -/
def leave (s : System) : System :=
  if s.task.flags &&& pfVfork ≠ 0 then
    withOwn s s.kernel s.task [] s.kernel.account.blocks [] s.kernel.account.pages
  else s

inductive Event where
  | exec (image : Words)
  | brk (n : Nat)
  | write (v o word : Nat)
  | forkParent (cloneVm : Bool)
  | forkChild
  | vforkChild
  | forkNone (cloneVm : Bool)
  | other (call : OtherCall)
  | store (a word : Nat)

def setWord (s : System) (a word : Nat) : System :=
  { s with kernel := { s.kernel with memory := Function.update s.kernel.memory a word } }

inductive Step : System → Event → System → Prop where
  | exec {s : System} {image : Words} {k : Kernel} {t : Task}
      (call : doExecve (leave s).kernel s.task image = some (k, t)) :
      Step s (.exec image) { leave s with kernel := k, task := t }
  | brk {s : System} {n r : Nat} {k : Kernel} {mm : Mm}
      (call : sysBrk s.kernel s.task.mm n = some (k, mm, r)) :
      Step s (.brk n) { s with kernel := k, task := { s.task with mm := mm } }
  -- a store of the process itself
  | write {s : System} {v o word q : Nat}
      (mapped : mapping s.kernel.memory s.task.mm.pgd v = some q) (inside : o < pageSize) :
      Step s (.write v o word) (setWord s (q + o) word)
  | forkParent {s : System} {k : Kernel} {child : Task} {cloneVm : Bool}
      {blocks : List (Nat × Nat)} {pages : List Nat}
      (call : doFork s.kernel s.task cloneVm = some (k, some child))
      (newBlocks : k.account.blocks = blocks ++ s.kernel.account.blocks)
      (newPages : k.account.pages = pages ++ s.kernel.account.pages) :
      Step s (.forkParent cloneVm)
        (withOwn s k s.task s.kernel.account.blocks blocks s.kernel.account.pages pages)
  | forkChild {s : System} {k : Kernel} {child : Task}
      {blocks : List (Nat × Nat)} {pages : List Nat}
      (call : doFork s.kernel s.task false = some (k, some child))
      (newBlocks : k.account.blocks = blocks ++ s.kernel.account.blocks)
      (newPages : k.account.pages = pages ++ s.kernel.account.pages) :
      Step s .forkChild
        (withOwn s k child blocks s.kernel.account.blocks pages s.kernel.account.pages)
  | vforkChild {s : System} {k : Kernel} {child : Task}
      (call : doFork s.kernel s.task true = some (k, some child)) :
      Step s .vforkChild { s with kernel := k, task := child }
  | forkNone {s : System} {k : Kernel} {cloneVm : Bool}
      (call : doFork s.kernel s.task cloneVm = some (k, none)) :
      Step s (.forkNone cloneVm) { s with kernel := k }
  | other {s : System} {call : OtherCall} {a : Account} (step : OtherStep (others s) call a) :
      Step s (.other call) (withOthers s a)
  -- any other store leaves the tables of the process alone
  | store {s : System} {a word : Nat}
      (outside : ∀ t, (physToVirt t, tableBytes) ∈ s.kernel.account.blocks →
        a < t ∨ t + tableBytes ≤ a) :
      Step s (.store a word) (setWord s a word)

/-- The first do_execve has returned, at some time after boot. -/
structure Start (b : Machine) (s : System) : Prop where
  before : ∃ es a memory initPgd t image, Steps OtherStep ⟨slabInit (initMemory b), [], []⟩ es a ∧
    t.flags &&& pfVfork ≠ 0 ∧
    doExecve ⟨⟨a.heap, [], []⟩, memory, initPgd⟩ t image = some (s.kernel, s.task) ∧
    s.otherBlocks = a.blocks ∧ s.otherPages = a.pages

structure Ready (area : Nat → Prop) (s : System) : Prop where
  sound : Sound area s.otherPages s.otherBlocks s.kernel.account
  space : ∃ level, Space s.kernel s.task.mm.pgd level
  start : s.task.mm.startBrk = brkStart

variable {boot : Nat → Prop} {otherPages : List Nat} {otherBlocks : List (Nat × Nat)}

theorem other_step_sound {a a' : Account} {e : OtherCall}
    (sound : Sound boot otherPages otherBlocks a) (step : OtherStep a e a') :
    Sound boot otherPages otherBlocks a' := by
  cases step with
  | kmalloc call => exact (take_block_spec (no_rule _ _) sound call).1
  | kfree held call =>
    obtain ⟨a'', given, kept, _⟩ := give_block_spec (no_rule _ _).drop sound held
    rw [given] at call
    cases call
    exact kept
  | allocPages call => exact (alloc_page_spec sound call).1
  | freePages held call =>
    obtain ⟨a'', freed, inv, _⟩ := free_page_inv sound.toInv held
    rw [freed] at call
    cases call
    exact ⟨inv, trivial⟩

theorem sound_swap {h : Heap} {blocks : List (Nat × Nat)} {pages : List Nat}
    (sound : Sound boot pages blocks ⟨h, otherBlocks, otherPages⟩) :
    Sound boot otherPages otherBlocks ⟨h, blocks, pages⟩ :=
  ⟨inv_perm_pages List.perm_append_comm (inv_perm List.perm_append_comm sound.toInv), trivial⟩

theorem sound_moved {h : Heap} {blocks blocks' otherBlocks' : List (Nat × Nat)}
    {pages pages' otherPages' : List Nat} (sound : Sound boot otherPages otherBlocks ⟨h, blocks, pages⟩)
    (sameBlocks : (blocks' ++ otherBlocks').Perm (blocks ++ otherBlocks))
    (samePages : (pages' ++ otherPages').Perm (pages ++ otherPages)) :
    Sound boot otherPages' otherBlocks' ⟨h, blocks', pages'⟩ :=
  ⟨inv_perm_pages samePages (inv_perm sameBlocks sound.toInv), trivial⟩

theorem do_fork_spec {k k' : Kernel} {t child : Task} {level : Nat → List Nat}
    (sound : Sound boot otherPages otherBlocks k.account) (space : Space k t.mm.pgd level)
    (call : doFork k t false = some (k', some child)) :
    ∃ k₀, Sound boot otherPages otherBlocks k₀.account ∧ Space k₀ t.mm.pgd level ∧
      k₀.account.pages = k.account.pages ∧ k₀.memory = k.memory ∧
      k₀.account.blocks = (child.address, stackSize) :: k.account.blocks ∧
      child.flags = t.flags ∧ copyMm k₀ t.mm = some (k', child.mm) := by
  obtain ⟨⟨a, r⟩, taken, call⟩ := Option.bind_eq_some_iff.mp call
  obtain ⟨kept, pages, blocks⟩ := take_block_spec (no_rule _ _) sound taken
  cases r with
  | none => cases call
  | some address =>
    dsimp only at call
    rw [if_neg (by decide)] at call
    obtain ⟨⟨k₁, mm⟩, copied, call⟩ := Option.bind_eq_some_iff.mp call
    cases call
    refine ⟨{ k with account := a }, kept, ?_, pages, rfl, blocks, rfl, copied⟩
    apply space.frame
    · exact fun _ _ _ _ _ _ => rfl
    · intro e member
      dsimp only
      rw [blocks]
      exact List.mem_cons_of_mem _ member
    · intro p member
      dsimp only
      rw [pages]
      exact member

theorem fork_taken {k k' : Kernel} {t : Task} {cloneVm : Bool} {r : Option Task}
    (sound : Sound boot otherPages otherBlocks k.account)
    (call : doFork k t cloneVm = some (k', r)) (short : cloneVm = true ∨ r = none) :
    Sound boot otherPages otherBlocks k'.account ∧ k'.memory = k.memory ∧
      k'.account.pages = k.account.pages ∧ (∀ e ∈ k.account.blocks, e ∈ k'.account.blocks) ∧
      ∀ child, r = some child → child.mm = t.mm := by
  obtain ⟨⟨a, r'⟩, taken, call⟩ := Option.bind_eq_some_iff.mp call
  obtain ⟨kept, pages, blocks⟩ := take_block_spec (no_rule _ _) sound taken
  have more : ∀ e ∈ k.account.blocks, e ∈ a.blocks := by
    intro e member
    rw [blocks]
    cases r' with
    | none => exact member
    | some _ => exact List.mem_cons_of_mem _ member
  cases r' with
  | none =>
    cases call
    exact ⟨kept, rfl, pages, more, nofun⟩
  | some address =>
    dsimp only at call
    rcases short with rfl | rfl
    · rw [if_pos rfl] at call
      cases call
      exact ⟨kept, rfl, pages, more, fun child same => by cases same; rfl⟩
    · split at call
      · cases call
      · obtain ⟨⟨k₁, mm⟩, _, call⟩ := Option.bind_eq_some_iff.mp call
        cases call

theorem fork_same_tables {k k' : Kernel} {t child : Task} {cloneVm : Bool}
    {level : Nat → List Nat} (sound : Sound boot otherPages otherBlocks k.account)
    (space : Space k t.mm.pgd level) (call : doFork k t cloneVm = some (k', some child)) :
    Sound boot otherPages otherBlocks k'.account ∧
      SameTables format level k.memory k'.memory := by
  cases cloneVm with
  | true =>
    obtain ⟨kept, memory, _⟩ := fork_taken sound call (Or.inl rfl)
    exact ⟨kept, fun _ _ _ _ _ _ => by rw [memory]⟩
  | false =>
    obtain ⟨k₀, sound₀, space₀, _, memory, _, _, copied⟩ := do_fork_spec sound space call
    obtain ⟨pdpt, pdt, p, kept, cases⟩ := copy_mm_spec sound₀ copied
    refine ⟨kept, ?_⟩
    rw [← memory]
    rcases cases with ⟨_, made, _⟩ | ⟨_, h, made, _⟩
    · exact made.built.same_tables kept space₀ made.built.frame
    · exact made.built.same_tables kept space₀ made.built.frame

def builtLevel (pgd pdpt pdt : Nat) (fresh : List Nat) (n : Nat) : List Nat :=
  if n = 0 then [pgd] else if n = 1 then [pdpt] else if n = 2 then [pdt] else
    fresh.map (pageSize * ·)

theorem Built.space {k k' : Kernel} {address pgd pdpt pdt : Nat} {fresh : List Nat}
    {last : Nat → Nat} (built : Built k k' address pgd pdpt pdt fresh last)
    (placed : Placed pgd pdpt pdt)
    (entries : ∀ i < 512, last i = 0 ∨ ∃ p ∈ fresh, last i = pageEntry p)
    {blocks : List (Nat × Nat)} (own : ∀ e ∈ spaceBlocks address pgd pdpt pdt, e ∈ blocks) :
    Space { k' with account := ⟨k'.account.heap, blocks, fresh⟩ } pgd
      (builtLevel pgd pdpt pdt fresh) := by
  have zero : builtLevel pgd pdpt pdt fresh 0 = [pgd] := rfl
  have one : builtLevel pgd pdpt pdt fresh 1 = [pdpt] := rfl
  have two : builtLevel pgd pdpt pdt fresh 2 = [pdt] := rfl
  have three : builtLevel pgd pdpt pdt fresh 3 = fresh.map (pageSize * ·) := rfl
  have depth : format.depth = 3 := rfl
  have table : ∀ n < 3, ∀ t ∈ builtLevel pgd pdpt pdt fresh n,
      (n = 0 ∧ t = pgd) ∨ (n = 1 ∧ t = pdpt) ∨ (n = 2 ∧ t = pdt) := by
    intro n deep t member
    obtain rfl | rfl | rfl : n = 0 ∨ n = 1 ∨ n = 2 := by omega
    · exact Or.inl ⟨rfl, List.mem_singleton.mp member⟩
    · exact Or.inr (Or.inl ⟨rfl, List.mem_singleton.mp member⟩)
    · exact Or.inr (Or.inr ⟨rfl, List.mem_singleton.mp member⟩)
  refine ⟨⟨?_, ?_, ?_⟩, zero, ?_, ?_⟩
  · intro n deep t member
    by_cases last_level : n = 3
    · rw [last_level, three] at member
      obtain ⟨p, _, rfl⟩ := List.mem_map.mp member
      exact page_aligned p
    · rcases table n (by omega) t member with ⟨_, rfl⟩ | ⟨_, rfl⟩ | ⟨_, rfl⟩
      · exact placed.aligned _ (by simp)
      · exact placed.aligned _ (by simp)
      · exact placed.aligned _ (by simp)
  · intro n deep m deep' t first second
    have differ := placed.pgd_pdpt
    have differ' := placed.pgd_pdt
    have differ'' := placed.pdpt_pdt
    have here := table n (by omega) t first
    have there := table m (by omega) t second
    omega
  · intro n deep t member i within
    rcases table n (by omega) t member with ⟨rfl, rfl⟩ | ⟨rfl, rfl⟩ | ⟨rfl, rfl⟩
    · unfold Leads
      dsimp only
      rw [built.root i within, one]
      by_cases first : i = 0
      · rw [if_pos first]
        exact Or.inr ⟨pdpt, List.mem_singleton.mpr rfl, rfl⟩
      · rw [if_neg first]
        exact Or.inl rfl
    · unfold Leads
      dsimp only
      rw [built.second i within, two]
      by_cases first : i = 0
      · rw [if_pos first]
        exact Or.inr ⟨pdt, List.mem_singleton.mpr rfl, rfl⟩
      · rw [if_neg first]
        exact Or.inl rfl
    · unfold Leads
      dsimp only
      rw [built.third i within, three]
      refine (entries i within).imp_right fun ⟨p, new, entry⟩ => ?_
      exact ⟨pageSize * p, List.mem_map_of_mem new, entry⟩
  · intro n deep t member
    apply own
    rcases table n deep t member with ⟨_, rfl⟩ | ⟨_, rfl⟩ | ⟨_, rfl⟩
    · simp [spaceBlocks]
    · simp [spaceBlocks]
    · simp [spaceBlocks]
  · intro q member
    rw [three] at member
    obtain ⟨p, new, rfl⟩ := List.mem_map.mp member
    exact ⟨p, new, rfl⟩

theorem code_entries (p i : Nat) : codeEntry p i = 0 ∨ codeEntry p i = pageEntry p := by
  by_cases code : i = 4
  · rw [code]
    exact Or.inr (code_entry_code p)
  · exact Or.inl (Function.update_of_ne code ..)

theorem heap_entries (p h i : Nat) :
    heapEntry p h i = 0 ∨ heapEntry p h i = pageEntry p ∨ heapEntry p h i = pageEntry h := by
  by_cases heap : i = 6
  · rw [heap]
    exact Or.inr (Or.inr (heap_entry_heap p h))
  · rw [heapEntry, Function.update_of_ne heap]
    exact (code_entries p i).imp_right Or.inl

theorem child_space {k k₀ k' : Kernel} {t child : Task} {blocks : List (Nat × Nat)}
    {pages : List Nat} (sound : Sound boot otherPages otherBlocks k₀.account)
    (stack : k₀.account.blocks = (child.address, stackSize) :: k.account.blocks)
    (same : k₀.account.pages = k.account.pages) (call : copyMm k₀ t.mm = some (k', child.mm))
    (newBlocks : k'.account.blocks = blocks ++ k.account.blocks)
    (newPages : k'.account.pages = pages ++ k.account.pages) :
    Sound boot otherPages otherBlocks k'.account ∧ child.mm.startBrk = t.mm.startBrk ∧
      ∃ level, Space { k' with account := ⟨k'.account.heap, blocks, pages⟩ } child.mm.pgd level := by
  obtain ⟨pdpt, pdt, p, kept, cases⟩ := copy_mm_spec sound call
  have own : ∀ {last fresh}, Copied k₀ k' t.mm child.mm pdpt pdt fresh last →
      (∀ e ∈ spaceBlocks child.mm.address child.mm.pgd pdpt pdt, e ∈ blocks) ∧ pages = fresh := by
    intro last fresh copied
    have all := copied.built.blocks
    rw [newBlocks, stack, List.append_cons] at all
    have cut := List.append_cancel_right all
    have pages_all := copied.built.pages
    rw [newPages, same] at pages_all
    refine ⟨fun e member => ?_, List.append_cancel_right pages_all⟩
    rw [cut]
    exact List.mem_append_left _ member
  rcases cases with ⟨_, copied, _⟩ | ⟨_, h, copied, _⟩
  · obtain ⟨blocks_own, rfl⟩ := own copied
    refine ⟨kept, copied.start_brk, _, copied.built.space (copied.built.placed kept) ?_ blocks_own⟩
    intro i _
    exact (code_entries p i).imp_right fun entry => ⟨p, List.mem_singleton.mpr rfl, entry⟩
  · obtain ⟨blocks_own, rfl⟩ := own copied
    refine ⟨kept, copied.start_brk, _, copied.built.space (copied.built.placed kept) ?_ blocks_own⟩
    intro i _
    rcases heap_entries p h i with zero | code | heap
    · exact Or.inl zero
    · exact Or.inr ⟨p, by simp, code⟩
    · exact Or.inr ⟨h, by simp, heap⟩

theorem leave_ready {s : System} (ready : Ready boot s) :
    Sound boot (leave s).otherPages (leave s).otherBlocks (leave s).kernel.account ∧
      (s.task.flags &&& pfVfork = 0 → ∃ level, Space (leave s).kernel s.task.mm.pgd level) := by
  unfold leave
  split
  · next shared =>
    exact ⟨sound_moved ready.sound List.Perm.rfl List.Perm.rfl, fun plain => absurd plain shared⟩
  · exact ⟨ready.sound, fun _ => ready.space⟩

theorem written_space {s : System} {level : Nat → List Nat} {a word : Nat}
    (space : Space s.kernel s.task.mm.pgd level)
    (outside : ∀ t, (physToVirt t, tableBytes) ∈ s.kernel.account.blocks →
      a < t ∨ t + tableBytes ≤ a) :
    Space (setWord s a word).kernel (setWord s a word).task.mm.pgd level := by
  apply space.frame
  · intro n deep t listed i small
    have apart := outside t (space.tables n deep t listed)
    have wide := slot_outside apart small
    exact Function.update_of_ne (Ne.symm wide) ..
  · exact fun e member => member
  · exact fun p member => member

/-- What a step of the process or of the rest of the kernel leaves. -/
theorem step_ready {s s' : System} {e : Event} (ready : Ready boot s) (step : Step s e s') :
    Ready boot s' := by
  obtain ⟨level, space⟩ := ready.space
  cases step with
  | exec call =>
    obtain ⟨sound, own⟩ := leave_ready ready
    obtain ⟨kept, space', start, _⟩ := do_execve_spec sound own call
    exact ⟨kept, space', start⟩
  | brk call =>
    obtain ⟨kept, space', start, _⟩ := sys_brk_spec ready.sound space call
    exact ⟨kept, space', start.trans ready.start⟩
  | @write v o word q mapped inside =>
    obtain ⟨_, p, held, rfl⟩ := mapping_page space mapped
    refine ⟨ready.sound, ⟨level, written_space space fun t table => ?_⟩, ready.start⟩
    have apart := (table_place ready.sound.toInv (List.mem_append_left _ table)).2 p
      (List.mem_append_left _ held)
    omega
  | @forkParent k child cloneVm blocks pages call newBlocks newPages =>
    have moved : ∀ {xs : List Nat} {ys : List (Nat × Nat)} {as bs : List Nat}
        {cs ds : List (Nat × Nat)}, xs = as ++ bs → ys = cs ++ ds →
        Sound boot s.otherPages s.otherBlocks ⟨k.account.heap, ys, xs⟩ →
        Sound boot (as ++ s.otherPages) (cs ++ s.otherBlocks) ⟨k.account.heap, ds, bs⟩ := by
      rintro xs ys as bs cs ds rfl rfl sound
      refine sound_moved sound ?_ ?_
      · rw [← List.append_assoc]
        exact List.perm_append_comm.append_right _
      · rw [← List.append_assoc]
        exact List.perm_append_comm.append_right _
    have after := fork_same_tables ready.sound space call
    refine ⟨moved newPages newBlocks after.1, ⟨level, ?_⟩, ready.start⟩
    exact space.frame after.2 (fun e member => member) (fun p member => member)
  | @forkChild k child blocks pages call newBlocks newPages =>
    obtain ⟨k₀, sound, _, same, _, stack, _, copied⟩ := do_fork_spec ready.sound space call
    obtain ⟨kept, start, space'⟩ := child_space sound stack same copied newBlocks newPages
    refine ⟨?_, space', start.trans ready.start⟩
    have all : Sound boot s.otherPages s.otherBlocks
        ⟨k.account.heap, blocks ++ s.kernel.account.blocks, pages ++ s.kernel.account.pages⟩ := by
      rw [← newBlocks, ← newPages]
      exact kept
    exact sound_moved all (.of_eq (List.append_assoc ..).symm) (.of_eq (List.append_assoc ..).symm)
  | @vforkChild k child call =>
    obtain ⟨kept, memory, pages, blocks, same⟩ := fork_taken ready.sound call (Or.inl rfl)
    have mm : child.mm = s.task.mm := same child rfl
    refine ⟨kept, ⟨level, ?_⟩, ?_⟩
    · dsimp only
      rw [mm]
      refine space.frame (fun _ _ _ _ _ _ => by rw [memory]) blocks fun p member => ?_
      rw [pages]
      exact member
    · dsimp only
      rw [mm]
      exact ready.start
  | forkNone call =>
    obtain ⟨kept, memory, pages, blocks, _⟩ := fork_taken ready.sound call (Or.inr rfl)
    refine ⟨kept, ⟨level, ?_⟩, ready.start⟩
    refine space.frame (fun _ _ _ _ _ _ => by rw [memory]) blocks fun p member => ?_
    rw [pages]
    exact member
  | other step =>
    have seen : Sound boot s.kernel.account.pages s.kernel.account.blocks (others s) :=
      sound_swap ready.sound
    refine ⟨sound_swap (other_step_sound seen step), ⟨level, ?_⟩, ready.start⟩
    exact space.frame (fun _ _ _ _ _ _ => rfl) (fun e member => member) (fun p member => member)
  | store outside => exact ⟨ready.sound, ⟨level, written_space space outside⟩, ready.start⟩

def bootInUse (b : Machine) : Nat → Prop := BootPages.Reserved (slabInit (initMemory b))

theorem start_ready {b : Machine} {s : System} (bootable : Bootable b) (start : Start b s) :
    Ready (bootInUse b) s := by
  obtain ⟨es, a, memory, initPgd, t, image, run, vfork, call, blocks, pages⟩ := start.before
  have booted : Sound (bootInUse b) [] [] ⟨slabInit (initMemory b), [], []⟩ :=
    ⟨(BootPages.boot_ready bootable).inv, trivial⟩
  have held := @invariant_of_step _ _ _ (Sound (bootInUse b) [] [])
    (fun _ _ _ => other_step_sound) _ _ _ run booted
  have sound : Sound (bootInUse b) a.pages a.blocks ⟨a.heap, [], []⟩ := sound_swap held
  obtain ⟨kept, space, first, _⟩ := do_execve_spec sound (fun plain => absurd plain vfork) call
  rw [← blocks, ← pages] at kept
  exact ⟨kept, space, first⟩

theorem run_ready {b : Machine} {s₀ s : System} {es : List Event} (bootable : Bootable b)
    (start : Start b s₀) (run : Steps Step s₀ es s) : Ready (bootInUse b) s :=
  @invariant_of_step _ _ _ (Ready (bootInUse b)) (fun _ _ _ => step_ready) _ _ _ run
    (start_ready bootable start)

theorem ready_same_space {s : System} {k : Kernel} {child : Task} (ready : Ready boot s)
    (call : doFork s.kernel s.task false = some (k, some child)) :
    SameSpace k.memory s.task.mm child.mm ↔
      s.task.mm.endBrk ≤ s.task.mm.startBrk + pageSize := by
  obtain ⟨level, space⟩ := ready.space
  obtain ⟨k₀, sound, space₀, _, _, _, _, copied⟩ := do_fork_spec ready.sound space call
  exact copy_mm_same_space sound space₀ ready.start copied

/-- After any run, a do_fork without CLONE_VM gives the child the address space of its parent
exactly when the heap has at most one page. -/
theorem fork_same_space (b : Machine) (bootable : Bootable b) (s₀ s : System) (es : List Event)
    (start : Start b s₀) (run : Steps Step s₀ es s) (k : Kernel) (child : Task)
    (call : doFork s.kernel s.task false = some (k, some child)) :
    SameSpace k.memory s.task.mm child.mm ↔
      s.task.mm.endBrk ≤ s.task.mm.startBrk + pageSize :=
  ready_same_space (run_ready bootable start run) call

theorem start_of_exec {b : Machine} {h : Heap} {memory image : Words} {initPgd : Nat}
    {t t' : Task} {k : Kernel} (booted : slabInit (initMemory b) = h) (vfork : t.flags &&& pfVfork ≠ 0)
    (call : doExecve ⟨⟨h, [], []⟩, memory, initPgd⟩ t image = some (k, t')) :
    Start b ⟨k, t', [], []⟩ := by
  subst booted
  exact ⟨[], _, memory, initPgd, t, image, .nil _, vfork, call, rfl, rfl⟩

theorem fork_after_brk {n : Nat} (far : brkStart + pageSize * n ≤ userEnd)
    (stocked : Stocked (slabInit (initMemory machine128)) 2 (3 + 2 * n + 3) 1 (2 + n + 1)) :
    ∃ s₀ s k child, Start machine128 s₀ ∧ Steps Step s₀ [.brk (brkStart + pageSize * n)] s ∧
      doFork s.kernel s.task false = some (k, some child) ∧ s.task.mm.startBrk = brkStart ∧
      s.task.mm.endBrk = brkStart + pageSize * n ∧ s.task.flags &&& pfVfork = 0 := by
  let t : Task := ⟨0, pfVfork, ⟨0, 0, 0, 0⟩⟩
  have vfork : t.flags &&& pfVfork ≠ 0 := by decide
  have booted : Sound (bootInUse machine128) [] [] ⟨slabInit (initMemory machine128), [], []⟩ :=
    ⟨(BootPages.boot_ready HeapRuns.machine128_bootable).inv, trivial⟩
  generalize at_boot : slabInit (initMemory machine128) = h at stocked booted
  obtain ⟨k₁, t₁, exec, flags, stocked₁, q, code⟩ := @do_execve_some _ _ _ ⟨⟨h, [], []⟩, fun _ => 0, 0⟩
    1 (3 + 2 * n) 1 (2 + n) t (fun _ => 0) booted vfork stocked
  obtain ⟨sound₁, ⟨level₁, space₁⟩, start₁, end₁⟩ :=
    do_execve_spec booted (fun plain => absurd plain vfork) exec
  obtain ⟨k₂, r, grown, stocked₂, heap, kept⟩ := sys_brk_some sound₁ space₁ end₁ far stocked₁
  obtain ⟨sound₂, ⟨level₂, space₂⟩, _⟩ := sys_brk_spec sound₁ space₁ grown
  let t₂ : Task := { t₁ with mm := { t₁.mm with endBrk := brkStart + pageSize * n } }
  obtain ⟨k, child, forked⟩ := @do_fork_some _ _ _ _ 0 0 0 0 t₂ _ _ sound₂ space₂ stocked₂
    (kept _ _ code) fun grown => heap <| by
      have start : t₂.mm.startBrk = brkStart := start₁
      have last : t₂.mm.endBrk = brkStart + pageSize * n := rfl
      rw [start, last] at grown
      exact Nat.pos_of_ne_zero fun zero => grown (by rw [zero]; rfl)
  refine ⟨⟨k₁, t₁, [], []⟩, ⟨k₂, t₂, [], []⟩, k, child, start_of_exec at_boot vfork exec,
    steps_single (.brk grown), forked, start₁, rfl, ?_⟩
  change t₁.flags &&& pfVfork = 0
  rw [flags]
  decide

theorem fork_same_space_one : ∃ s₀ s k child, Start machine128 s₀ ∧
    Steps Step s₀ [.brk (brkStart + pageSize * 1)] s ∧
    doFork s.kernel s.task false = some (k, some child) ∧
    SameSpace k.memory s.task.mm child.mm := by
  obtain ⟨s₀, s, k, child, start, run, forked, first, last, _⟩ := @fork_after_brk 1 (by decide)
    ⟨by decide +kernel, by decide +kernel, by decide +kernel, by decide +kernel⟩
  refine ⟨s₀, s, k, child, start, run, forked, ?_⟩
  rw [fork_same_space machine128 HeapRuns.machine128_bootable s₀ s _ start run k child forked,
    first, last]
  decide

/- Of two pages the second is missing. -/
theorem second_page_missing : ∃ s₀ s k child, Start machine128 s₀ ∧
    Steps Step s₀ [.brk (brkStart + pageSize * 2)] s ∧
    doFork s.kernel s.task false = some (k, some child) ∧
    ¬ SameSpace k.memory s.task.mm child.mm := by
  obtain ⟨s₀, s, k, child, start, run, forked, first, last, _⟩ := @fork_after_brk 2 (by decide)
    ⟨by decide +kernel, by decide +kernel, by decide +kernel, by decide +kernel⟩
  refine ⟨s₀, s, k, child, start, run, forked, ?_⟩
  rw [ready_same_space (run_ready HeapRuns.machine128_bootable start run) forked, first, last]
  decide

end AddressSpace

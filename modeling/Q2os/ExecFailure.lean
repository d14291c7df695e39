import Q2os.BrkRange
import Q2os.OpenFailure

/- A do_execve whose file does not open: what it has done to its caller by then. -/
namespace AddressSpace
open PageAllocator Kmalloc SlabCache TableTree Run BlockProgram Fat32
open OpenFiles (Volume ENOENT ENOTDIR)
open PathWalk (CString pathWalk)

def fileBytes : Nat := 40

/- do_execve up to the load of CR3. -/
def execPrepare (k : Kernel) (t : Task) : Option (Kernel × Mm) := do
  let (k, mm) ← execSpace k t
  match ← mapPage k mm.pgd codeStart with
  | (_, false) => none
  | (k, true) => return (k, mm)

/- do_execve from the opened file on. -/
def execLoad (k : Kernel) (t : Task) (mm : Mm) (image : Words) : Option (Kernel × Task) := do
  let page ← mapping k.memory mm.pgd codeStart
  let memory : Words := fun x =>
    if page ≤ x ∧ x < page + pageSize then image (x - page) else k.memory x
  return ({ k with memory := memory },
    { t with
      flags := t.flags &&& ~~~pfVfork
      mm := { mm with startBrk := brkStart, endBrk := brkStart } })

theorem do_execve_parts (k : Kernel) (t : Task) (image : Words) :
    doExecve k t image = (execPrepare k t).bind fun r => execLoad r.1 t r.2 image := by
  unfold doExecve execPrepare
  cases execSpace k t with
  | none => rfl
  | some r =>
    obtain ⟨k₁, mm⟩ := r
    dsimp only [Option.bind_eq_bind, Option.bind_some]
    cases mapPage k₁ mm.pgd codeStart with
    | none => rfl
    | some r =>
      obtain ⟨k₂, ok⟩ := r
      cases ok with
      | false => rfl
      | true => rfl

def OfPathWalk (_ : Account) : OtherCall → Prop
  | .kmalloc _ => True
  | .kfree _ => True
  | .allocPages => False
  | .freePages _ => False

def HeapRun (a a' : Account) : Prop := ∃ es, Steps (Guarded OfPathWalk OtherStep) a es a'

/-- open_exec_file, on a disk of which the transfers that ok names succeed and beside what the rest
of the kernel holds: an error, or the entry for which there is a struct file. -/
inductive OpenExecFile (v : Volume) (ok : Nat → Bool) (path : CString) (w : World) (a : Account) :
    Except Int Fat32.Found → World → Account → Prop where
  | missing {w' : World} {n : Nat} {a' : Account}
      (walked : runOn ok (pathWalk v path 0) w 0 = some (none, w', n)) (heap : HeapRun a a') :
      OpenExecFile v ok path w a (.error (-ENOENT)) w' a'
  | directory {w' : World} {n : Nat} {dentry : Fat32.Found} {a' : Account}
      (walked : runOn ok (pathWalk v path 0) w 0 = some (some dentry, w', n)) (heap : HeapRun a a')
      (kind : dentry.attributes = attrDir) :
      OpenExecFile v ok path w a (.error (-ENOTDIR)) w' a'
  | noMemory {w' : World} {n : Nat} {dentry : Fat32.Found} {a' a'' : Account}
      (walked : runOn ok (pathWalk v path 0) w 0 = some (some dentry, w', n)) (heap : HeapRun a a')
      (kind : dentry.attributes ≠ attrDir) (short : takeBlock a' fileBytes = some (a'', none)) :
      OpenExecFile v ok path w a (.error (-OpenFailure.ENOMEM)) w' a''
  | opened {w' : World} {n filp : Nat} {dentry : Fat32.Found} {a' a'' : Account}
      (walked : runOn ok (pathWalk v path 0) w 0 = some (some dentry, w', n)) (heap : HeapRun a a')
      (kind : dentry.attributes ≠ attrDir) (taken : takeBlock a' fileBytes = some (a'', some filp)) :
      OpenExecFile v ok path w a (.ok dentry) w' a''

structure Caller where
  system : System
  cr3 : Nat
  world : World

/- Of what the process holds, no table and no page is written. -/
structure Elsewhere (k : Kernel) (memory : Words) : Prop where
  tables : ∀ t x, (physToVirt t, tableBytes) ∈ k.account.blocks → t ≤ x → x < t + tableBytes →
    memory x = k.memory x
  pages : ∀ p x, p ∈ k.account.pages → pageSize * p ≤ x → x < pageSize * p + pageSize →
    memory x = k.memory x

def failedState (c : Caller) (k : Kernel) (mm : Mm) (memory : Words) (a : Account) (w : World) :
    Caller :=
  ⟨withOthers { c.system with
      kernel := { k with memory := memory }
      task := { c.system.task with mm := mm } } a, mm.pgd, w⟩

/-- A call of do_execve in which open_exec_file returns an error. -/
inductive Fails (v : Volume) (ok : Nat → Bool) (path : CString) (c : Caller) : Int → Caller → Prop where
  | fails {k : Kernel} {mm : Mm} {error : Int} {w : World} {a : Account} {memory : Words}
      (prepared : execPrepare c.system.kernel c.system.task = some (k, mm))
      (opened : OpenExecFile v ok path c.world (others { c.system with kernel := k })
        (.error error) w a)
      (elsewhere : Elsewhere k memory) :
      Fails v ok path c error (failedState c k mm memory a w)

def contentAt (c : Caller) (v : Nat) : Option Nat :=
  (mapping c.system.kernel.memory c.cr3 v).map fun page =>
    c.system.kernel.memory (page + v % pageSize)

/-- The caller as it was, with nothing of what the call has allocated. -/
structure Intact (c c' : Caller) : Prop where
  mm : c'.system.task.mm = c.system.task.mm
  flags : c'.system.task.flags = c.system.task.flags
  loaded : c'.cr3 = c.cr3
  contents : ∀ v < userEnd, contentAt c' v = contentAt c v
  pages : c'.system.kernel.account.pages = c.system.kernel.account.pages
  blocks : c'.system.kernel.account.blocks = c.system.kernel.account.blocks

/-- What holds where a task calls do_execve: its tables are its own, unless it shares them with the
task that forked it, and they are loaded. -/
structure CallerReady (boot : Nat → Prop) (c : Caller) : Prop where
  sound : Sound boot c.system.otherPages c.system.otherBlocks c.system.kernel.account
  own : c.system.task.flags &&& pfVfork = 0 →
    ∃ level, Space c.system.kernel c.system.task.mm.pgd level
  unshared : c.system.task.flags &&& pfVfork = 0 →
    Unshared format c.system.kernel.memory c.system.task.mm.pgd
  loaded : c.cr3 = c.system.task.mm.pgd

/-- An address space of the task's own, and a page in it for the code. -/
def OwnCode (c : Caller) : Prop :=
  c.system.task.flags &&& pfVfork = 0 ∧
    ∃ page, mapping c.system.kernel.memory c.system.task.mm.pgd codeStart = some page

theorem run_caller_ready {b : Machine} {s₀ s : System} {es : List Event}
    (bootable : SlabInit.Bootable b) (start : Start b s₀) (run : Steps Step s₀ es s)
    (w : World) : CallerReady (bootInUse b) ⟨s, s.task.mm.pgd, w⟩ := by
  obtain ⟨ready, alone⟩ := run_alone bootable start run
  exact ⟨ready.sound, fun _ => ready.space, fun _ => alone, rfl⟩

section page
variable {boot : Nat → Prop} {otherPages : List Nat} {otherBlocks : List (Nat × Nat)}
  {k k' : Kernel} {pgd v : Nat} {level : Nat → List Nat}

theorem ensure_table_full {tmp : Nat} (full : k.memory tmp ≠ 0) : ensureTable k tmp = some k :=
  if_neg full

theorem walk_cons {memory : Words} {i t u : Nat} {path : List Nat}
    (walked : walk memory (i :: path) t = some u) :
    memory (slot t i) ≠ 0 ∧ walk memory path (base (memory (slot t i))) = some u := by
  rw [walk] at walked
  split at walked
  · cases walked
  · next odd => exact ⟨fun zero => odd (by rw [zero]), walked⟩

theorem map_page_there {page : Nat} (mapped : mapping k.memory pgd v = some page) :
    mapPage k pgd v = some (k, true) := by
  unfold mapping at mapped
  split at mapped
  · obtain ⟨first, mapped⟩ := walk_cons mapped
    obtain ⟨second, mapped⟩ := walk_cons mapped
    obtain ⟨third, -⟩ := walk_cons mapped
    unfold mapPage slotOf
    dsimp only [Option.bind_eq_bind]
    rw [ensure_table_full first]
    dsimp only [Option.bind_some]
    rw [ensure_table_full second]
    dsimp only [Option.bind_some]
    rw [if_neg third]
    rfl
  · cases mapped

theorem take_block_pages {a a' : Account} {size : Nat} {r : Option Nat}
    (call : takeBlock a size = some (a', r)) : a'.pages = a.pages := by
  obtain ⟨_, _, made⟩ := Option.map_eq_some_iff.mp call
  cases made
  rfl

theorem take_table_pages {t : Nat} (call : takeTable k = some (k', t)) :
    k'.account.pages = k.account.pages := by
  unfold takeTable at call
  split at call
  · next taken =>
    cases call
    exact take_block_pages taken
  · cases call

theorem ensure_table_pages {tmp : Nat} (call : ensureTable k tmp = some k') :
    k'.account.pages = k.account.pages := by
  unfold ensureTable at call
  split at call
  · obtain ⟨⟨k₁, t⟩, taken, made⟩ := Option.map_eq_some_iff.mp call
    have pages := take_table_pages taken
    rw [← made]
    exact pages
  · cases call
    rfl

theorem map_page_takes (sound : Sound boot otherPages otherBlocks k.account)
    (space : Space k pgd level) (unshared : Unshared format k.memory pgd) (user : v < userEnd)
    (absent : mapping k.memory pgd v = none) (call : mapPage k pgd v = some (k', true)) :
    ∃ p, k'.account.pages = p :: k.account.pages := by
  obtain ⟨small₁, small₂, small₃⟩ := index_within user
  unfold mapPage at call
  obtain ⟨k₁, first, call⟩ := Option.bind_eq_some_iff.mp call
  obtain ⟨k₂, second, call⟩ := Option.bind_eq_some_iff.mp call
  obtain ⟨t, level₂, sound₂, space₂, _, listed₂, reached, place, same₂⟩ :=
    tables_reached sound space unshared user first second
  have tables : k₂.account.pages = k.account.pages :=
    (ensure_table_pages second).trans (ensure_table_pages first)
  have at_v := mapping_last user space.pgd_base reached
  dsimp only at call
  rw [place] at call
  split at call
  · cases linked : linkPage k₂ (slot t (index2M v)) with
    | none =>
      rw [linked] at call
      cases call
    | some r =>
      obtain ⟨k₃, phy⟩ := r
      rw [linked] at call
      cases call
      obtain ⟨p, _, _, pages, _⟩ := link_page_made sound₂ linked
      exact ⟨p, tables ▸ pages⟩
  · next full =>
    have there := @entry_walks _ _ _ space₂ 2 _ _ (by omega) listed₂ small₃ full
    rw [← at_v, same₂, absent] at there
    cases there

end page

section caller
variable {boot : Nat → Prop} {v : Volume} {ok : Nat → Bool} {path : CString} {c c' : Caller}
  {error : Int} {k : Kernel} {mm : Mm}

theorem prepare_own (own : OwnCode c) :
    execPrepare c.system.kernel c.system.task = some (c.system.kernel, c.system.task.mm) := by
  obtain ⟨plain, page, mapped⟩ := own
  unfold execPrepare execSpace
  rw [if_neg (fun shared => shared plain)]
  dsimp only [Option.bind_eq_bind, Option.bind_some]
  rw [map_page_there mapped]
  rfl

theorem exec_space_pages {k₁ : Kernel} {t : Task} (call : execSpace k t = some (k₁, mm)) :
    k₁.account.pages = k.account.pages := by
  unfold execSpace at call
  split at call
  · obtain ⟨⟨k₂, address⟩, first, call⟩ := Option.bind_eq_some_iff.mp call
    obtain ⟨⟨k₃, pgd⟩, second, call⟩ := Option.bind_eq_some_iff.mp call
    cases call
    unfold takeMm at first
    split at first
    · next taken =>
      cases first
      exact (take_table_pages second).trans (take_block_pages taken)
    · cases first
  · cases call
    rfl

theorem empty_root {memory : Words} {pgd w : Nat} (empty : ∀ i < 256, memory (slot pgd i) = 0)
    (base_root : base pgd = pgd) : mapping memory pgd w = none := by
  unfold mapping
  split
  · next user =>
    rw [base_root]
    have first : memory (slot pgd (gdtIndex w)) = 0 := empty _ (index_within user).1
    exact if_pos (by rw [first])
  · rfl

theorem exec_space_mapping {k₁ : Kernel} {t : Task} (call : execSpace k t = some (k₁, mm))
    (base_root : base mm.pgd = mm.pgd) (w : Nat) : mapping k₁.memory mm.pgd w =
      if t.flags &&& pfVfork ≠ 0 then none else mapping k.memory t.mm.pgd w := by
  unfold execSpace at call
  split at call
  · next shared =>
    obtain ⟨⟨k₂, address⟩, _, call⟩ := Option.bind_eq_some_iff.mp call
    obtain ⟨⟨k₃, pgd⟩, _, call⟩ := Option.bind_eq_some_iff.mp call
    cases call
    rw [if_pos shared]
    exact empty_root (exec_root k₃ pgd).clear base_root
  · next plain =>
    cases call
    rw [if_neg plain]

/-- Unless the code has its page in a space of the task's own, the call allocates one. -/
theorem prepare_takes (ready : CallerReady boot c) (lacks : ¬ OwnCode c)
    (call : execPrepare c.system.kernel c.system.task = some (k, mm)) :
    ∃ p, k.account.pages = p :: c.system.kernel.account.pages := by
  obtain ⟨⟨k₁, mm₁⟩, first, call⟩ := Option.bind_eq_some_iff.mp call
  obtain ⟨⟨k₂, done⟩, second, call⟩ := Option.bind_eq_some_iff.mp call
  cases done with
  | false => cases call
  | true =>
    cases call
    obtain ⟨sound₁, level₁, space₁⟩ := exec_space_spec ready.sound ready.own first
    have unshared₁ := exec_space_unshared ready.unshared first
    have absent : mapping k₁.memory mm.pgd codeStart = none := by
      rw [exec_space_mapping first space₁.pgd_base]
      split
      · rfl
      · next plain =>
        cases mapped : mapping c.system.kernel.memory c.system.task.mm.pgd codeStart with
        | none => rfl
        | some page => exact absurd ⟨by simpa using plain, page, mapped⟩ lacks
    obtain ⟨p, pages⟩ := map_page_takes sound₁ space₁ unshared₁ (by decide) absent second
    exact ⟨p, pages.trans (congrArg _ (exec_space_pages first))⟩

theorem elsewhere_tables {level : Nat → List Nat} {pgd : Nat} {memory : Words} (space : Space k pgd level)
    (elsewhere : Elsewhere k memory) : SameTables format level k.memory memory := by
  intro n deep t listed i small
  refine elsewhere.tables t _ (space.tables n deep t listed) (Nat.le_add_right ..) ?_
  unfold slot tableBytes
  omega

theorem elsewhere_content {level : Nat → List Nat} {pgd : Nat} {memory : Words}
    (space : Space k pgd level) (elsewhere : Elsewhere k memory) (w : Nat) :
    ((mapping memory pgd w).map fun page => memory (page + w % pageSize)) =
      (mapping k.memory pgd w).map fun page => k.memory (page + w % pageSize) := by
  rw [mapping_same space (elsewhere_tables space elsewhere) w]
  cases mapped : mapping k.memory pgd w with
  | none => rfl
  | some page =>
    obtain ⟨_, p, held, rfl⟩ := mapping_page space mapped
    have inside : w % pageSize < pageSize := Nat.mod_lt _ (by decide)
    rw [Option.map_some, Option.map_some,
      elsewhere.pages p _ held (Nat.le_add_right ..) (Nat.add_lt_add_left inside _)]

/-- A failed do_execve leaves its caller as it was exactly where the caller has a space of its own
and a page in it where the program would begin. -/
theorem failed_exec_intact_iff (boot : Nat → Prop) (v : Volume) (ok : Nat → Bool) (path : CString)
    (c c' : Caller) (error : Int) (ready : CallerReady boot c) (failed : Fails v ok path c error c') :
    Intact c c' ↔ OwnCode c := by
  obtain ⟨prepared, opened, elsewhere⟩ := failed
  constructor
  · intro intact
    by_contra lacks
    obtain ⟨p, pages⟩ := prepare_takes ready lacks prepared
    have kept : _ = c.system.kernel.account.pages := intact.pages
    exact List.cons_ne_self _ _ (pages.symm.trans kept)
  · intro own
    obtain ⟨level, space⟩ := ready.own own.1
    rw [prepare_own own] at prepared
    cases prepared
    refine ⟨rfl, rfl, ready.loaded.symm, fun w _ => ?_, rfl, rfl⟩
    have same := elsewhere_content space elsewhere w
    unfold contentAt
    rw [ready.loaded]
    exact same

end caller

open PathWalk (nestedVolume readmeName)
open NameMatching (directoryDisk)
open PageRuns (machine128)

theorem readme_missing : runOn (fun _ => true) (pathWalk nestedVolume readmeName.text 0)
    (directoryDisk []) 0 = some (none, directoryDisk [], 2) := rfl

def seeker (s : System) : Caller := ⟨s, s.task.mm.pgd, directoryDisk []⟩

def SeekFails (s : System) (c' : Caller) : Prop :=
  Fails nestedVolume (fun _ => true) readmeName.text (seeker s) (-ENOENT) c'

theorem seek_fails {s : System} {k : Kernel} {mm : Mm}
    (prepared : execPrepare s.kernel s.task = some (k, mm)) : ∃ c', SeekFails s c' :=
  ⟨_, .fails prepared (.missing readme_missing ⟨[], .nil _⟩)
    ⟨fun _ _ _ _ _ => rfl, fun _ _ _ _ _ => rfl⟩⟩

theorem failed_exec_intact_own : ∃ s c', Start machine128 s ∧ SeekFails s c' ∧
    (Intact (seeker s) c' ↔ OwnCode (seeker s)) ∧ OwnCode (seeker s) := by
  obtain ⟨s, start, _, plain, _, code⟩ := @started_stocked 0 0 0 0
    ⟨by decide +kernel, by decide +kernel, by decide +kernel, by decide +kernel⟩
  have ready := run_caller_ready HeapRuns.machine128_bootable start (.nil s) (directoryDisk [])
  have own : OwnCode (seeker s) := ⟨plain, code⟩
  obtain ⟨c', failed⟩ := seek_fails (prepare_own own)
  exact ⟨s, c', start, failed, failed_exec_intact_iff _ _ _ _ _ _ _ ready failed, own⟩

/-- A child that still shares its parent's space is left with one of its own, which has an empty
page where its code was. -/
theorem shared_space_lost : ∃ s₀ s c', Start machine128 s₀ ∧ Steps Step s₀ [.vforkChild] s ∧
    SeekFails s c' ∧ ¬ Intact (seeker s) c' := by
  obtain ⟨s₀, start, _, _, stocked, _⟩ := @started_stocked 1 3 1 1
    ⟨by decide +kernel, by decide +kernel, by decide +kernel, by decide +kernel⟩
  have ready₀ := run_ready HeapRuns.machine128_bootable start (.nil s₀)
  obtain ⟨a, address, taken, stocked₁⟩ := take_stack_some ready₀.sound stocked
  let child : Task :=
    { s₀.task with address := address, flags := s₀.task.flags ||| pfVfork }
  have forked : doFork s₀.kernel s₀.task true = some ({ s₀.kernel with account := a }, some child) := by
    unfold doFork
    rw [taken]
    rfl
  have step : Steps Step s₀ [.vforkChild] _ := steps_single (.vforkChild forked)
  have ready := run_caller_ready HeapRuns.machine128_bootable start step (directoryDisk [])
  have shared : child.flags &&& pfVfork ≠ 0 := by
    have all : (s₀.task.flags ||| pfVfork) &&& pfVfork = pfVfork := by
      ext i
      rw [BitVec.getElem_and, BitVec.getElem_or]
      cases pfVfork[i] with
      | false => exact Bool.and_false _
      | true => rw [Bool.or_true, Bool.and_true]
    exact fun zero => absurd (all.symm.trans zero) (by decide)
  obtain ⟨k, t, exec, -⟩ := @do_execve_some _ _ _ { s₀.kernel with account := a } 0 0 0 0 child
    (fun _ => 0) ready.sound shared stocked₁
  rw [do_execve_parts] at exec
  obtain ⟨⟨k₁, mm⟩, prepared, _⟩ := Option.bind_eq_some_iff.mp exec
  obtain ⟨c', failed⟩ := @seek_fails { s₀ with kernel := _, task := child } _ _ prepared
  refine ⟨s₀, _, c', start, step, failed, fun intact => ?_⟩
  exact shared ((failed_exec_intact_iff _ _ _ _ _ _ _ ready failed).mp intact).1

end AddressSpace

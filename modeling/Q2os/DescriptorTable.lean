import Q2os.OpenFiles
import Q2os.Run
import Q2os.UserPointers

/- g_file_struct under the six calls that take a descriptor: which of them can be made on a
   place of the table that is free. -/
namespace DescriptorTable
open ByteMemory BlockProgram Fat32 OpenFiles Run

/- The test lets TASK_FILE_MAX through, and g_file_struct[TASK_FILE_MAX] is no place of the
   table. -/
def sysGetdents (v : Volume) (files : Files) (fd : Int) (dirent : Nat) (count : Int) :
    Prog (Int × Files) :=
  if fd < 0 ∨ (taskFileMax : Int) < fd then return (-EBADF, files)
  else if count < 0 then return (-EINVAL, files)
  else if fd = taskFileMax then .fault
  else
    match files fd.toNat with
    | none => .fault
    | some filp =>
      if filp.device then return (0, files)
      else do
        let (named, position) ←
          FAT32Readdir v.rounds v.fsbi filp.inode.firstCluster filp.position
        let files := Function.update files fd.toNat (some { filp with position := position })
        match named with
        | none => return (0, files)
        | some name => do
          let ret ← UserPointers.fillDentry dirent name
          return (ret, files)

inductive Request where
  | file (call : Call)
  | getdents (fd : Int) (dirent : Nat) (count : Int)

def Request.serve (v : Volume) (files : Files) : Request → Prog (Int × Files)
  | .file call => syscall v files call
  | .getdents fd dirent count => sysGetdents v files fd dirent count

def Request.descriptor : Request → Option Int
  | .file (.opening _ _) => none
  | .file (.close fd) => some fd
  | .file (.read fd _ _) => some fd
  | .file (.write fd _ _) => some fd
  | .file (.lseek fd _ _) => some fd
  | .getdents fd _ _ => some fd

structure Entry where
  request : Request
  memory : Memory
  fresh : List Memory

def answer (v : Volume) (s : Session) (e : Entry) : Option ((Int × Files) × World) :=
  run (e.request.serve v s.files) ⟨s.disk, e.memory, e.fresh, [], []⟩

/- A fault ends the kernel. -/
inductive Kernel where
  | running (session : Session)
  | crashed

def Session.after (v : Volume) (s : Session) (e : Entry) : Kernel :=
  match answer v s e with
  | none => .crashed
  | some reply => .running ⟨reply.2.disk, reply.1.2⟩

def Step (v : Volume) (k : Kernel) (e : Entry) (t : Kernel) : Prop :=
  ∃ s, k = .running s ∧ t = Session.after v s e

/- Not the descriptor of an open file. -/
def Closed (files : Files) (fd : Int) : Prop := BadDescriptor fd ∨ files fd.toNat = none

/-- sys_open fails and leaves the table alone, or fills the lowest free place and returns it. -/
def OpensLowest (files : Files) (ret : Int) (files' : Files) : Prop :=
  (ret < 0 ∧ files' = files) ∨
  ∃ fd filp, ret = (fd : Nat) ∧ fd < taskFileMax ∧ files fd = none ∧
    (∀ j < fd, files j ≠ none) ∧ files' = Function.update files fd (some filp)

/-- A place that was taken is free exactly behind a sys_close on it that succeeded. -/
def FreedByClose (files : Files) (request : Request) (ret : Int) (files' : Files) : Prop :=
  ∀ fd : Nat, (files fd ≠ none ∧ files' fd = none) ↔ (request = .file (.close fd) ∧ ret = 0)

/-- What one request owes the table. -/
structure Safe (v : Volume) (s : Session) (e : Entry) : Prop where
  closed : ∀ fd, e.request.descriptor = some fd → Closed s.files fd →
    ∃ ret w, ret < 0 ∧ answer v s e = some ((ret, s.files), w)
  lowest : ∀ path flags ret files w, e.request = .file (.opening path flags) →
    answer v s e = some ((ret, files), w) → OpensLowest s.files ret files
  freed : ∀ ret files w, answer v s e = some ((ret, files), w) →
    FreedByClose s.files e.request ret files

/-- A call that uses the file pointer untested, and whose own tests pass, is on an open file. -/
def Tested (files : Files) : Request → Prop
  | .file (.opening _ _) => True
  | .file (.close fd) => BadDescriptor fd ∨ files fd.toNat ≠ none
  | .file (.read _ _ _) => True
  | .file (.write fd _ count) => BadDescriptor fd ∨ count < 0 ∨ files fd.toNat ≠ none
  | .file (.lseek fd _ whence) =>
    BadDescriptor fd ∨ (whence < 0 ∨ seekMax ≤ whence) ∨ files fd.toNat ≠ none
  | .getdents fd _ count =>
    (fd < 0 ∨ (taskFileMax : Int) < fd) ∨ count < 0 ∨
      (fd ≠ taskFileMax ∧ files fd.toNat ≠ none)

def Plain : Request → Prop
  | .file (.opening _ _) => False
  | .file (.close _) => False
  | _ => True

/- Everything a request that answers can do to the table. -/
inductive Effect (files : Files) : Request → Int → Files → Prop where
  | opened {path : List Component} {flags : Nat} {ret : Int} {files' : Files}
      (lowest : OpensLowest files ret files') :
      Effect files (.file (.opening path flags)) ret files'
  | refused {fd ret : Int} (error : ret < 0) : Effect files (.file (.close fd)) ret files
  | released {fd : Int} (good : ¬ BadDescriptor fd) (taken : files fd.toNat ≠ none) :
      Effect files (.file (.close fd)) 0 (Function.update files fd.toNat none)
  | kept {request : Request} {ret : Int} (plain : Plain request) : Effect files request ret files
  | moved {request : Request} {ret : Int} {place : Nat} (filp : OpenFile) (plain : Plain request)
      (taken : files place ≠ none) :
      Effect files request ret (Function.update files place (some filp))

theorem run_bind_some {α β : Type} {p : Prog α} {f : α → Prog β} {w w' : World} {b : β}
    (ran : run (p >>= f) w = some (b, w')) :
    ∃ a w₁, run p w = some (a, w₁) ∧ run (f a) w₁ = some (b, w') := by
  rw [run_bind] at ran
  obtain ⟨⟨a, w₁⟩, first, rest⟩ := Option.bind_eq_some_iff.mp ran
  exact ⟨a, w₁, first, rest⟩

section effects
variable {v : Volume} {files files' : Files} {ret : Int} {w w' : World}

theorem open_lowest (dentry : Found) (flags : Nat) :
    OpensLowest files (openEntry files dentry flags).1 (openEntry files dentry flags).2 := by
  have not_directory : -ENOTDIR < 0 := by decide
  have is_directory : -EISDIR < 0 := by decide
  have full : -EMFILE < 0 := by decide
  unfold openEntry
  split
  · exact Or.inl ⟨not_directory, rfl⟩
  · split
    · exact Or.inl ⟨is_directory, rfl⟩
    · cases found : freeDescriptor files with
      | none => exact Or.inl ⟨full, rfl⟩
      | some fd =>
        obtain ⟨free, inside, before⟩ := List.find?_range_eq_some.mp found
        refine Or.inr ⟨fd, openFile dentry flags, rfl, List.mem_range.mp inside,
          Option.isNone_iff_eq_none.mp free, fun j less => ?_, rfl⟩
        have taken := before j less
        intro empty
        rw [empty] at taken
        cases taken

theorem open_effect {path : List Component} {flags : Nat}
    (ran : run (sysOpen v files path flags) w = some ((ret, files'), w')) :
    OpensLowest files ret files' := by
  obtain ⟨found, w₁, _, rest⟩ := run_bind_some ran
  cases found with
  | none =>
    cases rest
    exact Or.inl ⟨by decide, rfl⟩
  | some dentry =>
    have same : openEntry files dentry flags = (ret, files') :=
      congrArg Prod.fst (Option.some.inj rest)
    have lowest := @open_lowest files dentry flags
    rw [same] at lowest
    exact lowest

theorem close_effect {fd : Int} (ran : run (sysClose files fd) w = some ((ret, files'), w')) :
    Effect files (.file (.close fd)) ret files' := by
  unfold sysClose at ran
  split at ran
  · cases ran
    exact .refused (by decide)
  · rename_i good
    cases opened : files fd.toNat with
    | none =>
      rw [opened] at ran
      cases ran
    | some filp =>
      rw [opened] at ran
      cases ran
      exact .released good (by rw [opened]; exact Option.some_ne_none filp)

theorem read_effect {fd count : Int} {buf : Nat}
    (ran : run (sysRead v files fd buf count) w = some ((ret, files'), w')) :
    Effect files (.file (.read fd buf count)) ret files' := by
  unfold sysRead at ran
  split at ran
  · cases ran
    exact .kept trivial
  · split at ran
    · cases ran
      exact .kept trivial
    · cases opened : files fd.toNat with
      | none =>
        rw [opened] at ran
        cases ran
        exact .kept trivial
      | some filp =>
        have taken : files fd.toNat ≠ none := by
          rw [opened]
          exact Option.some_ne_none filp
        rw [opened] at ran
        dsimp only at ran
        split at ran
        · obtain ⟨⟨got, position⟩, w₁, _, rest⟩ := run_bind_some ran
          cases rest
          exact .moved _ trivial taken
        · obtain ⟨⟨got, position⟩, w₁, _, rest⟩ := run_bind_some ran
          cases rest
          exact .moved _ trivial taken

theorem write_effect {fd count : Int} {buf : Nat}
    (ran : run (sysWrite v files fd buf count) w = some ((ret, files'), w')) :
    Effect files (.file (.write fd buf count)) ret files' := by
  unfold sysWrite at ran
  split at ran
  · cases ran
    exact .kept trivial
  · split at ran
    · cases ran
      exact .kept trivial
    · cases opened : files fd.toNat with
      | none =>
        rw [opened] at ran
        cases ran
      | some filp =>
        have taken : files fd.toNat ≠ none := by
          rw [opened]
          exact Option.some_ne_none filp
        rw [opened] at ran
        dsimp only at ran
        split at ran
        · obtain ⟨⟨got, position⟩, w₁, _, rest⟩ := run_bind_some ran
          cases rest
          exact .moved _ trivial taken
        · obtain ⟨⟨got, inode, position⟩, w₁, _, rest⟩ := run_bind_some ran
          cases rest
          exact .moved _ trivial taken

theorem lseek_effect {fd offset whence : Int}
    (ran : run (sysLseek files fd offset whence) w = some ((ret, files'), w')) :
    Effect files (.file (.lseek fd offset whence)) ret files' := by
  unfold sysLseek at ran
  split at ran
  · cases ran
    exact .kept trivial
  · split at ran
    · cases ran
      exact .kept trivial
    · cases opened : files fd.toNat with
      | none =>
        rw [opened] at ran
        cases ran
      | some filp =>
        rw [opened] at ran
        dsimp only at ran
        split at ran
        · cases ran
          exact .kept trivial
        · cases ran
          exact .moved _ trivial (by rw [opened]; exact Option.some_ne_none filp)

theorem getdents_effect {fd count : Int} {dirent : Nat}
    (ran : run (sysGetdents v files fd dirent count) w = some ((ret, files'), w')) :
    Effect files (.getdents fd dirent count) ret files' := by
  unfold sysGetdents at ran
  split at ran
  · cases ran
    exact .kept trivial
  · split at ran
    · cases ran
      exact .kept trivial
    · split at ran
      · cases ran
      · cases opened : files fd.toNat with
        | none =>
          rw [opened] at ran
          cases ran
        | some filp =>
          have taken : files fd.toNat ≠ none := by
            rw [opened]
            exact Option.some_ne_none filp
          rw [opened] at ran
          dsimp only at ran
          split at ran
          · cases ran
            exact .kept trivial
          · obtain ⟨⟨named, position⟩, w₁, _, rest⟩ := run_bind_some ran
            cases named with
            | none =>
              cases rest
              exact .moved _ trivial taken
            | some name =>
              obtain ⟨got, w₂, _, last⟩ := run_bind_some rest
              cases last
              exact .moved _ trivial taken

theorem serve_effect {request : Request}
    (ran : run (request.serve v files) w = some ((ret, files'), w')) :
    Effect files request ret files' := by
  cases request with
  | getdents fd dirent count => exact getdents_effect ran
  | file call =>
    cases call with
    | opening path flags => exact .opened (open_effect ran)
    | close fd => exact close_effect ran
    | read fd buf count => exact read_effect ran
    | write fd buf count => exact write_effect ran
    | lseek fd offset whence => exact lseek_effect ran

theorem Effect.lowest {path : List Component} {flags : Nat}
    (effect : Effect files (.file (.opening path flags)) ret files') :
    OpensLowest files ret files' := by
  cases effect with
  | opened lowest => exact lowest
  | kept plain => exact plain.elim
  | moved filp plain taken => exact plain.elim

theorem update_free {place fd : Nat} {entry : Option OpenFile} (taken : files fd ≠ none)
    (free : Function.update files place entry fd = none) : fd = place ∧ entry = none := by
  by_cases here : fd = place
  · rw [here, Function.update_self] at free
    exact ⟨here, free⟩
  · rw [Function.update_of_ne here] at free
    exact absurd free taken

theorem Effect.freed {request : Request} (effect : Effect files request ret files') :
    FreedByClose files request ret files' := by
  intro fd
  cases effect with
  | opened lowest =>
    constructor
    · intro freed
      rcases lowest with ⟨_, same⟩ | ⟨place, filp, _, _, _, _, same⟩
      · rw [same] at freed
        exact absurd freed.2 freed.1
      · rw [same] at freed
        exact absurd (update_free freed.1 freed.2).2 (Option.some_ne_none filp)
    · intro closes
      cases closes.1
  | @refused other ret error =>
    constructor
    · intro freed
      exact absurd freed.2 freed.1
    · intro closes
      rw [closes.2] at error
      exact absurd error (by decide)
  | @released other good taken =>
    constructor
    · intro freed
      have here := (update_free freed.1 freed.2).1
      have same : other = (fd : Int) := by
        unfold BadDescriptor at good
        omega
      rw [same]
      exact ⟨rfl, rfl⟩
    · intro closes
      have same : other = (fd : Int) := by
        injection closes.1 with calls
        injection calls
      have place : other.toNat = fd := by
        rw [same]
        exact Int.toNat_natCast fd
      rw [place] at taken ⊢
      exact ⟨taken, Function.update_self fd none files⟩
  | kept plain =>
    constructor
    · intro freed
      exact absurd freed.2 freed.1
    · intro closes
      rw [closes.1] at plain
      exact plain.elim
  | moved filp plain taken =>
    constructor
    · intro freed
      exact absurd (update_free freed.1 freed.2).2 (Option.some_ne_none filp)
    · intro closes
      rw [closes.1] at plain
      exact plain.elim

end effects

section closed
variable {v : Volume} {s : Session} {memory : Memory} {fresh : List Memory}

theorem close_closed {fd : Int} (closed : Closed s.files fd) :
    (∃ ret w, ret < 0 ∧
      answer v s ⟨.file (.close fd), memory, fresh⟩ = some ((ret, s.files), w)) ↔
    Tested s.files (.file (.close fd)) := by
  have error : -EBADF < 0 := by decide
  unfold answer
  simp only [Request.serve, syscall, sysClose, Tested]
  by_cases bad : BadDescriptor fd
  · rw [if_pos bad]
    exact iff_of_true ⟨_, _, error, rfl⟩ (Or.inl bad)
  · have free := closed.resolve_left bad
    rw [if_neg bad, free]
    refine iff_of_false ?_ ?_
    · rintro ⟨ret, w, _, same⟩
      cases same
    · rintro (other | taken)
      · exact bad other
      · exact taken rfl

theorem read_closed {fd count : Int} {buf : Nat} (closed : Closed s.files fd) :
    ∃ ret w, ret < 0 ∧
      answer v s ⟨.file (.read fd buf count), memory, fresh⟩ = some ((ret, s.files), w) := by
  have error : -EBADF < 0 := by decide
  have invalid : -OpenFiles.EINVAL < 0 := by decide
  unfold answer
  simp only [Request.serve, syscall, sysRead]
  by_cases bad : BadDescriptor fd
  · rw [if_pos bad]
    exact ⟨_, _, error, rfl⟩
  · rw [if_neg bad]
    by_cases negative : count < 0
    · rw [if_pos negative]
      exact ⟨_, _, invalid, rfl⟩
    · rw [if_neg negative, closed.resolve_left bad]
      exact ⟨-1, _, by decide, rfl⟩

theorem refused_iff {bad invalid : Prop} [Decidable bad] [Decidable invalid] {files : Files}
    {rest : Prog (Int × Files)} {w : World} (faults : ¬ bad → ¬ invalid → rest = .fault) :
    (∃ ret w', ret < 0 ∧
      run (if bad then return (-EBADF, files)
        else if invalid then return (-OpenFiles.EINVAL, files) else rest) w =
          some ((ret, files), w')) ↔ bad ∨ invalid := by
  have error : -EBADF < 0 := by decide
  have no_argument : -OpenFiles.EINVAL < 0 := by decide
  by_cases bad_here : bad
  · rw [if_pos bad_here]
    exact iff_of_true ⟨_, _, error, rfl⟩ (Or.inl bad_here)
  · rw [if_neg bad_here]
    by_cases invalid_here : invalid
    · rw [if_pos invalid_here]
      exact iff_of_true ⟨_, _, no_argument, rfl⟩ (Or.inr invalid_here)
    · rw [if_neg invalid_here, faults bad_here invalid_here]
      refine iff_of_false ?_ (not_or.mpr ⟨bad_here, invalid_here⟩)
      rintro ⟨ret, w', _, same⟩
      cases same

theorem tested_closed {bad invalid : Prop} {files : Files} {fd : Int}
    (free : ¬ bad → files fd.toNat = none) :
    bad ∨ invalid ∨ files fd.toNat ≠ none ↔ bad ∨ invalid := by
  constructor
  · rintro (bad_here | invalid_here | taken)
    · exact Or.inl bad_here
    · exact Or.inr invalid_here
    · by_contra neither
      exact taken (free (not_or.mp neither).1)
  · rintro (bad_here | invalid_here)
    · exact Or.inl bad_here
    · exact Or.inr (Or.inl invalid_here)

theorem write_closed {fd count : Int} {buf : Nat} (closed : Closed s.files fd) :
    (∃ ret w, ret < 0 ∧
      answer v s ⟨.file (.write fd buf count), memory, fresh⟩ = some ((ret, s.files), w)) ↔
    Tested s.files (.file (.write fd buf count)) := by
  rw [Tested, tested_closed fun good => closed.resolve_left good]
  unfold answer
  simp only [Request.serve, syscall, sysWrite]
  apply refused_iff
  intro good _
  rw [closed.resolve_left good]

theorem lseek_closed {fd offset whence : Int} (closed : Closed s.files fd) :
    (∃ ret w, ret < 0 ∧
      answer v s ⟨.file (.lseek fd offset whence), memory, fresh⟩ = some ((ret, s.files), w)) ↔
    Tested s.files (.file (.lseek fd offset whence)) := by
  rw [Tested, tested_closed fun good => closed.resolve_left good]
  unfold answer
  simp only [Request.serve, syscall, sysLseek]
  apply refused_iff
  intro good _
  rw [closed.resolve_left good]

theorem getdents_closed {fd count : Int} {dirent : Nat} (closed : Closed s.files fd) :
    (∃ ret w, ret < 0 ∧
      answer v s ⟨.getdents fd dirent count, memory, fresh⟩ = some ((ret, s.files), w)) ↔
    Tested s.files (.getdents fd dirent count) := by
  have outside : ¬ (fd < 0 ∨ (taskFileMax : Int) < fd) → fd ≠ taskFileMax →
      s.files fd.toNat = none := by
    intro passed other
    refine closed.resolve_left fun bad => ?_
    unfold BadDescriptor at bad
    omega
  have same : Tested s.files (.getdents fd dirent count) ↔
      (fd < 0 ∨ (taskFileMax : Int) < fd) ∨ count < 0 := by
    unfold Tested
    constructor
    · rintro (bad | negative | ⟨other, taken⟩)
      · exact Or.inl bad
      · exact Or.inr negative
      · by_contra neither
        exact taken (outside (not_or.mp neither).1 other)
    · rintro (bad | negative)
      · exact Or.inl bad
      · exact Or.inr (Or.inl negative)
  rw [same]
  unfold answer
  simp only [Request.serve, sysGetdents]
  apply refused_iff
  intro good _
  by_cases last : fd = taskFileMax
  · rw [if_pos last]
  · rw [if_neg last, outside good last]

theorem refused_closed {fd : Int} {request : Request} (named : request.descriptor = some fd)
    (closed : Closed s.files fd) :
    (∃ ret w, ret < 0 ∧ answer v s ⟨request, memory, fresh⟩ = some ((ret, s.files), w)) ↔
      Tested s.files request := by
  cases request with
  | getdents other dirent count =>
    cases named
    exact getdents_closed closed
  | file call =>
    cases call with
    | opening path flags => cases named
    | close other =>
      cases named
      exact close_closed closed
    | read other buf count =>
      cases named
      exact iff_of_true (read_closed closed) trivial
    | write other buf count =>
      cases named
      exact write_closed closed
    | lseek other offset whence =>
      cases named
      exact lseek_closed closed

end closed

theorem tested_open {files : Files} {fd : Int} {request : Request}
    (named : request.descriptor = some fd) (opened : ¬ Closed files fd) : Tested files request := by
  obtain ⟨good, taken⟩ := not_or.mp opened
  cases request with
  | getdents other dirent count =>
    cases named
    unfold BadDescriptor at good
    exact Or.inr (Or.inr ⟨by omega, taken⟩)
  | file call =>
    cases call with
    | opening path flags => cases named
    | close other =>
      cases named
      exact Or.inr taken
    | read other buf count => exact trivial
    | write other buf count =>
      cases named
      exact Or.inr (Or.inr taken)
    | lseek other offset whence =>
      cases named
      exact Or.inr (Or.inr taken)

/- The requests that are safe are those whose descriptor is tested. -/
theorem safe_iff {v : Volume} {s : Session} {e : Entry} :
    Safe v s e ↔ Tested s.files e.request := by
  constructor
  · intro safe
    cases named : e.request.descriptor with
    | none =>
      cases request : e.request with
      | getdents fd dirent count =>
        rw [request] at named
        cases named
      | file call =>
        rw [request] at named
        cases call with
        | opening path flags => exact trivial
        | close fd => cases named
        | read fd buf count => cases named
        | write fd buf count => cases named
        | lseek fd offset whence => cases named
    | some fd =>
      by_cases closed : Closed s.files fd
      · exact (refused_closed named closed).mp (safe.closed fd named closed)
      · exact tested_open named closed
  · intro tested
    refine ⟨fun fd named closed => (refused_closed named closed).mpr tested, ?_, ?_⟩
    · intro path flags ret files w opening ran
      have effect := serve_effect ran
      rw [opening] at effect
      exact effect.lowest
    · intro ret files w ran
      exact (serve_effect ran).freed

/-- Along a run: whatever request a running kernel gets. -/
def SafeStep (v : Volume) (k : Kernel) (e : Entry) (_ : Kernel) : Prop :=
  ∀ s, k = .running s → Safe v s e

def TestedStep (k : Kernel) (e : Entry) : Prop :=
  ∀ s, k = .running s → Tested s.files e.request

/-- The requests of a run are all safe if and only if each that uses the file pointer untested is
    on an open file or fails one of its own tests. -/
theorem table_safe_iff (v : Volume) (s : Session) (es : List Entry) (k : Kernel) :
    Steps (Meeting (SafeStep v) (Step v)) (.running s) es k ↔
      Steps (Guarded TestedStep (Step v)) (.running s) es k := by
  refine @steps_meeting_iff _ _ _ (fun _ => True) (SafeStep v) TestedStep ?_ ?_ _ _ _ trivial
  · intro k e t _ _
    exact forall₂_congr fun s _ => safe_iff
  · exact fun _ _ _ _ _ _ => trivial

def oneVolume : Volume :=
  ⟨⟨0, 8, 1, 512, 4, 2, 1, 2⟩, 2, 1, fun _ _ _ => .fault, fun _ _ _ => .fault⟩

def nothingOpen : Session := ⟨zeros, fun _ => none⟩
def closeNothing : Entry := ⟨.file (.close 0), zeros, []⟩

theorem close_unsafe :
    Steps (Step oneVolume) (.running nothingOpen) [closeNothing]
      (Session.after oneVolume nothingOpen closeNothing) ∧
    ¬ ∃ k, Steps (Meeting (SafeStep oneVolume) (Step oneVolume)) (.running nothingOpen)
      [closeNothing] k := by
  refine ⟨steps_single ⟨nothingOpen, rfl, rfl⟩, ?_⟩
  rintro ⟨k, run⟩
  cases run with
  | cons head tail =>
    have free : Closed nothingOpen.files 0 := Or.inr rfl
    have tested := (refused_closed rfl free).mp ((head.2 nothingOpen rfl).closed 0 rfl free)
    rcases tested with bad | taken
    · exact absurd bad (by decide)
    · exact taken rfl

end DescriptorTable

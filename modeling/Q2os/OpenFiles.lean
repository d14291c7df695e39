import Q2os.Fat32Lookup

/- The file calls of sys.c over the table of open files, and path_walk of VFS.c. -/
namespace OpenFiles
open ByteMemory BlockProgram Fat32

def EBADF : Int := 8
def EINVAL : Int := 28
def EISDIR : Int := 31
def EMFILE : Int := 33
def ENOENT : Int := 45
def ENOTDIR : Int := 57

def oTrunc : Nat := 0o1000
def oAppend : Nat := 0o2000
def oDirectory : Nat := 0o40000

def taskFileMax : Nat := 10
def seekMax : Int := 3

/- read and write of keyboard_fops: what they return and the new position. -/
structure DeviceOperations where
  read (buf count : Nat) (position : Int) : Prog (Int × Int)
  write (buf count : Nat) (position : Int) : Prog (Int × Int)

/- The mounted volume, as many rounds as a directory has clusters at most, and the device
   behind entries marked so. -/
structure Volume where
  fsbi : SbInfo
  rootCluster : Nat
  rounds : Nat
  keyboard : DeviceOperations

def Volume.root (v : Volume) : Found := ⟨⟨0, v.rootCluster, 0, 0⟩, attrDir⟩

/- struct file with the inode made for it, and whether f_ops is keyboard_fops. -/
structure OpenFile where
  inode : IndexNode
  device : Bool
  position : Int

abbrev Files := Nat → Option OpenFile

def pathWalk (v : Volume) : Found → List Component → Prog (Option Found)
  | parent, [] => return some parent
  | parent, d :: path => do
    match ← FAT32Lookup v.rounds v.fsbi parent.inode.firstCluster d with
    | none => return none
    | some found => pathWalk v found path

/- The file sys_open makes of an entry: a fresh inode of its own. -/
def openFile (dentry : Found) (flags : Nat) : OpenFile :=
  let inode := if flags &&& oTrunc ≠ 0 then { dentry.inode with fileSize := 0 } else dentry.inode
  { inode := inode
    device := dentry.attributes &&& attrDevice ≠ 0
    position := if flags &&& oAppend ≠ 0 then inode.fileSize else 0 }

def freeDescriptor (files : Files) : Option Nat :=
  (List.range taskFileMax).find? fun i => (files i).isNone

def openEntry (files : Files) (dentry : Found) (flags : Nat) : Int × Files :=
  if flags &&& oDirectory ≠ 0 ∧ dentry.attributes ≠ attrDir then (-ENOTDIR, files)
  else if flags &&& oDirectory = 0 ∧ dentry.attributes = attrDir then (-EISDIR, files)
  else
    match freeDescriptor files with
    | none => (-EMFILE, files)
    | some fd => (fd, Function.update files fd (some (openFile dentry flags)))

def sysOpen (v : Volume) (files : Files) (path : List Component) (flags : Nat) :
    Prog (Int × Files) := do
  match ← pathWalk v v.root path with
  | none => return (-ENOENT, files)
  | some dentry => return openEntry files dentry flags

/- Opening an entry fails and leaves the table alone, or takes a free place of it. -/
theorem openEntry_cases (files : Files) (dentry : Found) (flags : Nat) :
    (∃ error : Int, error < 0 ∧ openEntry files dentry flags = (error, files)) ∨
    ∃ fd : Nat, openEntry files dentry flags =
      ((fd : Int), Function.update files fd (some (openFile dentry flags))) := by
  unfold openEntry
  split
  · exact Or.inl ⟨_, by decide, rfl⟩
  · split
    · exact Or.inl ⟨_, by decide, rfl⟩
    · split
      · exact Or.inl ⟨_, by decide, rfl⟩
      · exact Or.inr ⟨_, rfl⟩

def BadDescriptor (fd : Int) : Prop := fd < 0 ∨ (taskFileMax : Int) ≤ fd

instance (fd : Int) : Decidable (BadDescriptor fd) := inferInstanceAs (Decidable (_ ∨ _))

def sysClose (files : Files) (fd : Int) : Prog (Int × Files) :=
  if BadDescriptor fd then return (-EBADF, files)
  else
    match files fd.toNat with
    | none => .fault
    | some _ => return (0, Function.update files fd.toNat none)

def sysRead (v : Volume) (files : Files) (fd : Int) (buf : Nat) (count : Int) :
    Prog (Int × Files) :=
  if BadDescriptor fd then return (-EBADF, files)
  else if count < 0 then return (-EINVAL, files)
  else
    match files fd.toNat with
    | none => return (-1, files)
    | some filp => do
      let (ret, position) ←
        if filp.device then v.keyboard.read buf count.toNat filp.position
        else FAT32Read v.fsbi filp.inode buf count.toNat filp.position
      return (ret, Function.update files fd.toNat (some { filp with position := position }))

def sysWrite (v : Volume) (files : Files) (fd : Int) (buf : Nat) (count : Int) :
    Prog (Int × Files) :=
  if BadDescriptor fd then return (-EBADF, files)
  else if count < 0 then return (-EINVAL, files)
  else
    match files fd.toNat with
    | none => .fault
    | some filp =>
      if filp.device then do
        let (ret, position) ← v.keyboard.write buf count.toNat filp.position
        return (ret, Function.update files fd.toNat (some { filp with position := position }))
      else do
        let (ret, inode, position) ← FAT32Write v.fsbi filp.inode buf count.toNat filp.position
        return (ret, Function.update files fd.toNat
          (some { filp with inode := inode, position := position }))

def sysLseek (files : Files) (fd offset whence : Int) : Prog (Int × Files) :=
  if BadDescriptor fd then return (-EBADF, files)
  else if whence < 0 ∨ seekMax ≤ whence then return (-EINVAL, files)
  else
    match files fd.toNat with
    | none => .fault
    | some filp =>
      if filp.device then return (0, files)
      else
        let (ret, position) := FAT32Lseek filp.inode filp.position offset whence.toNat
        return (ret, Function.update files fd.toNat (some { filp with position := position }))

inductive Call where
  | opening (path : List Component) (flags : Nat)
  | close (fd : Int)
  | read (fd : Int) (buf : Nat) (count : Int)
  | write (fd : Int) (buf : Nat) (count : Int)
  | lseek (fd offset whence : Int)

def syscall (v : Volume) (files : Files) : Call → Prog (Int × Files)
  | .opening path flags => sysOpen v files path flags
  | .close fd => sysClose files fd
  | .read fd buf count => sysRead v files fd buf count
  | .write fd buf count => sysWrite v files fd buf count
  | .lseek fd offset whence => sysLseek files fd offset whence

/- A call with the memory of its caller and what the blocks it takes from the heap hold. -/
structure Event where
  call : Call
  memory : Memory
  fresh : List Memory

structure Session where
  disk : Memory
  files : Files

def Session.world (s : Session) (e : Event) : World := ⟨s.disk, e.memory, e.fresh, [], []⟩

/-- The result of a call, and the disk and memory behind it; none where it faults. -/
def Session.answer (v : Volume) (s : Session) (e : Event) : Option ((Int × Files) × World) :=
  run (syscall v s.files e.call) (s.world e)

end OpenFiles

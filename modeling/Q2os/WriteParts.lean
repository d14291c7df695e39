import Q2os.Fat32File
import Q2os.Interleaving
import Q2os.TableSupply

/- FAT32_write in parts, those that take a cluster for themselves. -/
namespace WriteParts
open ByteMemory BlockProgram Fat32 Interleaving

structure Call where
  inode : IndexNode
  buf : Nat
  count : Nat
  position : Nat

/- Where a task is in FAT32_write: a file gets its first cluster in create, a further one in
   extend. -/
inductive Part where
  | called (call : Call)
  | create (call : Call) (buffer : Memory)
  | round (call : Call) (fuel : Nat) (s : Writing)
  | extend (call : Call) (fuel : Nat) (s : Writing)
  | leave (call : Call) (leave : Leave)
  | done (result : Int × IndexNode × Int)

/- What a task did to the table: FAT32_find_available_cluster gave it a cluster, or an entry got a
   value from it. -/
inductive Update where
  | took (cluster : Nat)
  | wrote (entry value : Nat)
deriving DecidableEq

section code
variable (fsbi : SbInfo)

/- index = count, at the first round of the loop. -/
def firstRound (call : Call) (cluster : Nat) (flags : Bool) (buffer : Memory) : Part :=
  let index := toInt32 call.count
  let offset := (call.position : Int).tmod fsbi.bytesPerCluster
  .round call (index.toNat + 1) ⟨cluster, 0, flags, index, offset, call.buf, buffer, call.position⟩

/- A round of the loop up to the entry of the cluster. -/
def writeRound (call : Call) (fuel : Nat) (s : Writing) : Prog Part := do
  match ← loadCluster fsbi s with
  | none => return .leave call s.failed
  | some s =>
    let length := pieceLength fsbi s.index s.offset
    let buffer ← copyIn fsbi s.buffer s.offset s.buf length
    let written ← writeSectors s.sector fsbi.sectorPerCluster buffer
    if written = false then return .leave call s.failed
    else
      let s := s.past length buffer
      if s.index = 0 then return .leave call (.done ⟨0, s.index, s.position⟩)
      else
        let next ← DISK1FAT32ReadFATEntry fsbi s.cluster
        if next ≥ 0x0ffffff8 then return .extend call fuel s
        else return .round call fuel s

def code : Part → Prog Part
  | .called call => do
    if fsbi.bytesPerCluster = 0 then .fault
    let links := toInt32 ((call.position : Int).tdiv fsbi.bytesPerCluster)
    let buffer ← alloc
    if call.inode.firstCluster = 0 then return .create call buffer
    else
      let cluster ← walkChain fsbi links.toNat call.inode.firstCluster
      if cluster = 0 then return .done (-ENOSPC, call.inode, call.position)
      return firstRound fsbi call cluster false buffer
  | .create call buffer => do
    let cluster ← FAT32FindAvailableCluster fsbi
    if cluster = 0 then return .done (-ENOSPC, call.inode, call.position)
    let inode := { call.inode with firstCluster := cluster }
    fat32WriteInode fsbi inode
    DISK1FAT32WriteFATEntry fsbi cluster 0x0ffffff8
    return firstRound fsbi { call with inode := inode } cluster true buffer
  | .round _ 0 _ => .fault
  | .round call (fuel + 1) s => writeRound fsbi call fuel s
  | .extend call fuel s => do
    match ← extendChain fsbi s with
    | none => return .leave call (.full s.position)
    | some s => return .round call fuel s
  | .leave call (.full position) => return .done (-ENOSPC, call.inode, position)
  | .leave call (.done last) => do
    let retval := if last.index = 0 then (call.count : Int).bmod (2 ^ 64) else last.retval
    if (last.position % 2 ^ 64).toNat > call.inode.fileSize then
      let inode := { call.inode with fileSize := (last.position % 2 ^ 64).toNat }
      fat32WriteInode fsbi inode
      return .done (retval, inode, last.position)
    else return .done (retval, call.inode, last.position)
  | .done result => return .done result

/- From FAT32_find_available_cluster to the last DISK1_FAT32_write_FAT_Entry for what it found. -/
def updates : Part → Bool
  | .create .. => true
  | .extend .. => true
  | _ => false

/- The latest first. -/
def reported : Part → Part → List Update
  | .create _ _, .round _ _ s => [.wrote s.cluster endMark, .took s.cluster]
  | .extend _ _ old, .round _ _ s =>
    [.wrote s.cluster endMark, .wrote old.cluster s.cluster, .took s.cluster]
  | _, _ => []

def fat32Write : Parts Part Update := ⟨code fsbi, updates, reported⟩

def whole : Nat → Part → Prog (Int × IndexNode × Int)
  | 0, _ => .fault
  | _ + 1, .done result => return result
  | n + 1, part => do whole n (← code fsbi part)

end code

variable {fsbi : SbInfo}

/- What FAT32_write does behind the loop. -/
def ending (fsbi : SbInfo) (call : Call) : Leave → Prog (Int × IndexNode × Int)
  | .full position => return (-ENOSPC, call.inode, position)
  | .done last =>
    let retval := if last.index = 0 then (call.count : Int).bmod (2 ^ 64) else last.retval
    if (last.position % 2 ^ 64).toNat > call.inode.fileSize then do
      let inode := { call.inode with fileSize := (last.position % 2 ^ 64).toNat }
      fat32WriteInode fsbi inode
      return (retval, inode, last.position)
    else return (retval, call.inode, last.position)

theorem whole_leave (call : Call) (leave : Leave) (n : Nat) :
    whole fsbi (n + 2) (.leave call leave) = ending fsbi call leave := by
  cases leave with
  | full position => rfl
  | done last =>
    simp only [whole, code, ending]
    split
    · rw [bind_assoc_prog]
      rfl
    · rfl

theorem pure_bind_prog {α β : Type} (a : α) (f : α → Prog β) : (pure a : Prog α) >>= f = f a := rfl

theorem bind_congr_prog {α β : Type} (p : Prog α) {f g : α → Prog β} (same : ∀ a, f a = g a) :
    p >>= f = p >>= g := congrArg (p >>= ·) (funext same)

theorem whole_next {part : Part} (going : ∀ result, part ≠ .done result) (n : Nat) :
    whole fsbi (n + 1) part = code fsbi part >>= whole fsbi n := by
  cases part with
  | done result => exact absurd rfl (going result)
  | _ => rfl

theorem whole_round (call : Call) {fuel n : Nat} (enough : 2 * fuel + 2 ≤ n) (s : Writing) :
    whole fsbi n (.round call fuel s) = writePieces fsbi fuel s >>= ending fsbi call := by
  induction fuel generalizing n s with
  | zero =>
    obtain ⟨m, rfl⟩ : ∃ m, n = m + 1 := ⟨n - 1, by omega⟩
    rfl
  | succ fuel ih =>
    obtain ⟨m, rfl⟩ : ∃ m, n = m + 4 := ⟨n - 4, by omega⟩
    have next : ∀ s, whole fsbi (m + 3) (.round call fuel s) =
        writePieces fsbi fuel s >>= ending fsbi call := ih (by omega)
    have behind : ∀ s, whole fsbi (m + 2) (.round call fuel s) =
        writePieces fsbi fuel s >>= ending fsbi call := ih (by omega)
    have left : ∀ leave, whole fsbi (m + 3) (.leave call leave) = ending fsbi call leave :=
      fun leave => whole_leave call leave (m + 1)
    have full : ∀ leave, whole fsbi (m + 2) (.leave call leave) = ending fsbi call leave :=
      fun leave => whole_leave call leave m
    rw [whole_next (by simp)]
    simp only [code, writeRound, writePieces, writePiece, bind_assoc_prog]
    refine bind_congr_prog _ fun loaded => ?_
    cases loaded with
    | none => exact left _
    | some s =>
      simp only [bind_assoc_prog]
      refine bind_congr_prog _ fun buffer => ?_
      refine bind_congr_prog _ fun written => ?_
      split
      · exact left _
      · split
        · exact left _
        · simp only [bind_assoc_prog]
          refine bind_congr_prog _ fun value => ?_
          split
          · rw [pure_bind_prog, whole_next (by simp)]
            simp only [code, bind_assoc_prog]
            refine bind_congr_prog _ fun extended => ?_
            cases extended with
            | none => exact full _
            | some s => exact behind _
          · exact next _

theorem whole_first (call : Call) {n : Nat} {index : Int} (int : toInt32 call.count = index)
    (enough : 2 * index.toNat + 4 ≤ n) (cluster : Nat) (flags : Bool) (buffer : Memory) :
    whole fsbi n (firstRound fsbi call cluster flags buffer) =
      writeAt fsbi call.inode cluster flags buffer call.buf call.count call.position := by
  simp only [firstRound, writeAt, int]
  rw [whole_round call (by omega)]
  refine bind_congr_prog _ fun leave => ?_
  cases leave with
  | full position => rfl
  | done last => rfl

/-- The parts make up FAT32_write. -/
theorem whole_write (call : Call) {n : Nat} {index : Int} (int : toInt32 call.count = index)
    (enough : 2 * index.toNat + 6 ≤ n) :
    whole fsbi n (.called call) =
      FAT32Write fsbi call.inode call.buf call.count call.position := by
  obtain ⟨m, rfl⟩ : ∃ m, n = m + 3 := ⟨n - 3, by omega⟩
  have first := @whole_first fsbi call (m + 2) index int (by omega)
  rw [whole_next (by simp)]
  simp only [code, FAT32Write]
  by_cases empty : fsbi.bytesPerCluster = 0
  · rw [if_pos empty, if_pos empty]
    rfl
  simp only [if_neg empty, bind_assoc_prog]
  refine bind_congr_prog _ fun buffer => ?_
  split
  · rw [pure_bind_prog, whole_next (by simp)]
    simp only [code, bind_assoc_prog]
    refine bind_congr_prog _ fun cluster => ?_
    split
    · rfl
    · simp only [bind_assoc_prog]
      refine bind_congr_prog _ fun entry => ?_
      refine bind_congr_prog _ fun mark => ?_
      rw [pure_bind_prog]
      exact @whole_first fsbi { call with inode := { call.inode with firstCluster := cluster } }
        (m + 1) index int (by omega) cluster true buffer
  · simp only [bind_assoc_prog]
    refine bind_congr_prog _ fun cluster => ?_
    split
    · rfl
    · rw [pure_bind_prog]
      exact first cluster false buffer

end WriteParts

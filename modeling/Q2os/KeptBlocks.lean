import Mathlib.Data.Finset.Lattice.Fold
import Mathlib.Order.Lattice.Nat
import Q2os.NameReturns
import Q2os.UserPointers

/- The blocks FAT32_read, FAT32_write and FAT32_readdir take from the heap, and which of them they
   give back. -/
namespace KeptBlocks
open ByteMemory BlockProgram Fat32 NameMatching NameReturns

/- A program that knows the blocks in use. -/
abbrev Owning := StateT (Finset Nat) Prog

/- What takes no block and gives none back. -/
def plain {α : Type} (p : Prog α) : Owning α := fun live => p >>= fun a => return (a, live)

section code
variable (choose : Finset Nat → Nat)

def kmalloc : Owning Nat := fun live => return (choose live, insert (choose live) live)
def kfree (block : Nat) : Owning Unit := fun live => return ((), live.erase block)

def FAT32Read (fsbi : SbInfo) (inode : IndexNode) (buf count : Nat) (position : Int) :
    Owning (Int × Int) :=
  if fsbi.bytesPerCluster = 0 then plain .fault
  else do
    let links := toInt32 (position.tdiv fsbi.bytesPerCluster)
    let offset := position.tmod fsbi.bytesPerCluster
    let buffer ← kmalloc choose
    let _ ← plain alloc
    if inode.firstCluster = 0 then return (-EFAULT, position)
    else
      let cluster ← plain (walkChain fsbi links.toNat inode.firstCluster)
      let count := if ((position + count) % 2 ^ 64).toNat > inode.fileSize
        then ((inode.fileSize - position) % 2 ^ 64).toNat else count
      let index := toInt32 count
      let last ← plain (readPieces fsbi (index.toNat + 1) cluster index offset buf position)
      kfree buffer
      return (if last.index = 0 then (count : Int).bmod (2 ^ 64) else last.retval, last.position)

def fat32WriteInode (fsbi : SbInfo) (inode : IndexNode) : Owning Unit :=
  if inode.dentryLocation = 0 then return ()
  else do
    let sector := clusterSector fsbi inode.dentryLocation
    let block ← kmalloc choose
    let _ ← plain alloc
    let reply ← plain (readSectors sector fsbi.sectorPerCluster)
    let buf := clusterBuffer fsbi (received reply)
    let buf := updateDirectory buf (32 * inode.dentryPosition) inode
    let _ ← plain (writeSectors sector fsbi.sectorPerCluster buf)
    kfree block

def writeAt (block : Nat) (fsbi : SbInfo) (inode : IndexNode) (cluster : Nat) (flags : Bool)
    (buffer : Memory) (buf count : Nat) (position : Int) : Owning (Int × IndexNode × Int) := do
  let index := toInt32 count
  let offset := position.tmod fsbi.bytesPerCluster
  match ← plain (writePieces fsbi (index.toNat + 1)
      ⟨cluster, 0, flags, index, offset, buf, buffer, position⟩) with
  | .full position => do
    kfree block
    return (-ENOSPC, inode, position)
  | .done last =>
    let retval := if last.index = 0 then (count : Int).bmod (2 ^ 64) else last.retval
    if (last.position % 2 ^ 64).toNat > inode.fileSize then do
      let inode := { inode with fileSize := (last.position % 2 ^ 64).toNat }
      fat32WriteInode choose fsbi inode
      kfree block
      return (retval, inode, last.position)
    else do
      kfree block
      return (retval, inode, last.position)

def FAT32Write (fsbi : SbInfo) (inode : IndexNode) (buf count : Nat) (position : Int) :
    Owning (Int × IndexNode × Int) :=
  if fsbi.bytesPerCluster = 0 then plain .fault
  else do
    let links := toInt32 (position.tdiv fsbi.bytesPerCluster)
    let block ← kmalloc choose
    let buffer ← plain alloc
    if inode.firstCluster = 0 then do
      let cluster ← plain (FAT32FindAvailableCluster fsbi)
      if cluster = 0 then do
        kfree block
        return (-ENOSPC, inode, position)
      else do
        let inode := { inode with firstCluster := cluster }
        fat32WriteInode choose fsbi inode
        plain (DISK1FAT32WriteFATEntry fsbi cluster 0x0ffffff8)
        writeAt choose block fsbi inode cluster true buffer buf count position
    else do
      let cluster ← plain (walkChain fsbi links.toNat inode.firstCluster)
      if cluster = 0 then do
        kfree block
        return (-ENOSPC, inode, position)
      else writeAt choose block fsbi inode cluster false buffer buf count position

/- Where an entry is found, name is one block more. -/
def FAT32Readdir (fuel : Nat) (fsbi : SbInfo) (firstCluster : Nat) (position : Int) :
    Owning (Option (List UInt8) × Int) :=
  if fsbi.bytesPerCluster = 0 then plain .fault
  else do
    let buf ← kmalloc choose
    let before ← plain alloc
    let block ← plain alloc
    match ← plain (seekCluster fsbi (walkLength fsbi position) (firstCluster % 2 ^ 32)) with
    | none => return (none, position)
    | some cluster =>
      match ← plain (readdirFrom fsbi before block fuel cluster position) with
      | (none, position) => do
        kfree buf
        return (none, position)
      | (some (v, p), position) =>
        match readdirName fuel v p with
        | none => plain .fault
        | some name => do
          let _ ← kmalloc choose
          return (some name, position)

end code

section rules
variable {α β : Type} (live : Finset Nat)

theorem plain_before (p : Prog α) (f : α → Owning β) :
    (plain p >>= f) live = p >>= fun a => f a live := by
  change (p >>= fun a => pure (a, live)) >>= (fun r => f r.1 r.2) = _
  rw [bind_assoc_prog]
  rfl

theorem plain_bind (p : Prog α) (f : α → Prog β) :
    plain (p >>= f) live = p >>= fun a => plain (f a) live := bind_assoc_prog _ _ _

theorem plain_like {p : Owning α} {q : Prog α} (same : p live = plain q live) (f : α → Owning β) :
    (p >>= f) live = q >>= fun a => f a live := by
  rw [← plain_before]
  change (p live >>= fun r => f r.1 r.2) = plain q live >>= fun r => f r.1 r.2
  rw [same]

theorem kmalloc_before (choose : Finset Nat → Nat) (f : Nat → Owning β) :
    (kmalloc choose >>= f) live = f (choose live) (insert (choose live) live) := rfl

theorem kfree_before (block : Nat) (f : Unit → Owning β) :
    (kfree block >>= f) live = f () (live.erase block) := rfl

end rules

section same
variable {choose : Finset Nat → Nat} (fresh : ∀ live, choose live ∉ live) (live : Finset Nat)
include fresh

theorem fat32WriteInode_plain (fsbi : SbInfo) (inode : IndexNode) :
    fat32WriteInode choose fsbi inode live = plain (Fat32.fat32WriteInode fsbi inode) live := by
  unfold fat32WriteInode Fat32.fat32WriteInode
  by_cases root : inode.dentryLocation = 0
  · simp only [root, ↓reduceIte]
    rfl
  · simp only [root, ↓reduceIte, kmalloc_before, plain_before, plain_bind]
    rw [kfree, Finset.erase_insert (fresh live)]
    rfl

theorem writeAt_plain {block : Nat} (taken : block ∉ live) (fsbi : SbInfo) (inode : IndexNode)
    (cluster : Nat) (flags : Bool) (buffer : Memory) (buf count : Nat) (position : Int) :
    writeAt choose block fsbi inode cluster flags buffer buf count position (insert block live) =
      plain (Fat32.writeAt fsbi inode cluster flags buffer buf count position) live := by
  unfold writeAt Fat32.writeAt
  simp only [plain_before, plain_bind]
  congr 1
  funext leave
  cases leave with
  | full position =>
    simp only [kfree_before, Finset.erase_insert taken]
    rfl
  | done last =>
    dsimp only
    by_cases longer : (last.position % 2 ^ 64).toNat > inode.fileSize
    · simp only [longer, ↓reduceIte, plain_bind]
      rw [plain_like _ (fat32WriteInode_plain fresh _ fsbi _)]
      simp only [kfree_before, Finset.erase_insert taken]
      rfl
    · simp only [longer, ↓reduceIte, kfree_before, Finset.erase_insert taken]
      rfl

/-- FAT32_write gives back every block, on every exit. -/
theorem write_plain (fsbi : SbInfo) (inode : IndexNode) (buf count : Nat) (position : Int) :
    FAT32Write choose fsbi inode buf count position live =
      plain (Fat32.FAT32Write fsbi inode buf count position) live := by
  unfold FAT32Write Fat32.FAT32Write
  by_cases none_ : fsbi.bytesPerCluster = 0
  · simp only [none_, ↓reduceIte]
    rfl
  · simp only [none_, ↓reduceIte, kmalloc_before, plain_before, plain_bind]
    congr 1
    funext buffer
    by_cases empty : inode.firstCluster = 0
    · simp only [empty, ↓reduceIte, plain_before, plain_bind]
      congr 1
      funext cluster
      by_cases full : cluster = 0
      · simp only [full, ↓reduceIte, kfree_before, Finset.erase_insert (fresh live)]
        rfl
      · simp only [full, ↓reduceIte, plain_bind]
        rw [plain_like _ (fat32WriteInode_plain fresh _ fsbi _)]
        simp only [plain_before, writeAt_plain fresh live (fresh live)]
    · simp only [empty, ↓reduceIte, plain_before, plain_bind]
      congr 1
      funext cluster
      by_cases full : cluster = 0
      · simp only [full, ↓reduceIte, kfree_before, Finset.erase_insert (fresh live)]
        rfl
      · simp only [full, ↓reduceIte]
        exact writeAt_plain fresh live (fresh live) ..

/-- FAT32_read keeps its block where the file has no cluster, and gives it back elsewhere. -/
theorem read_plain (fsbi : SbInfo) (inode : IndexNode) (buf count : Nat) (position : Int) :
    FAT32Read choose fsbi inode buf count position live =
      Fat32.FAT32Read fsbi inode buf count position >>= fun r => return (r,
        if inode.firstCluster = 0 then insert (choose live) live else live) := by
  unfold FAT32Read Fat32.FAT32Read
  by_cases none_ : fsbi.bytesPerCluster = 0
  · simp only [none_, ↓reduceIte]
    rfl
  · simp only [none_, ↓reduceIte, kmalloc_before, plain_before]
    by_cases empty : inode.firstCluster = 0
    · simp only [empty, ↓reduceIte]
      rfl
    · simp only [empty, ↓reduceIte, plain_before, kfree_before, Finset.erase_insert (fresh live)]
      simp only [bind_assoc_prog]
      rfl

omit fresh in
/- FAT32_readdir with its account is FAT32_readdir. -/
theorem readdir_same (fuel : Nat) (fsbi : SbInfo) (firstCluster : Nat) (position : Int) :
    (FAT32Readdir choose fuel fsbi firstCluster position live >>= fun r => pure r.1) =
      Fat32.FAT32Readdir fuel fsbi firstCluster position := by
  unfold FAT32Readdir Fat32.FAT32Readdir
  by_cases none_ : fsbi.bytesPerCluster = 0
  · simp only [none_, ↓reduceIte]
    rfl
  · simp only [none_, ↓reduceIte, kmalloc_before, plain_before, bind_assoc_prog]
    congr 1
    funext before
    congr 1
    funext block
    congr 1
    funext sought
    cases sought with
    | none => rfl
    | some cluster =>
      simp only [plain_before, bind_assoc_prog]
      congr 1
      funext found
      obtain ⟨entry, position'⟩ := found
      cases entry with
      | none => rfl
      | some entry =>
        dsimp only
        cases readdirName fuel entry.1 entry.2 with
        | none => rfl
        | some name => rfl

end same

/- An entry of the table as the k-th transfer gives it: 0 where it fails. -/
def linkOn (fsbi : SbInfo) (w : World) (ok : Nat → Bool) (k cluster : Nat) : Nat :=
  if ok k then fatEntry fsbi w cluster else 0

/- Where the walk of n links from a cluster ends, its first link read by the k-th transfer. -/
def soughtOn (link : Nat → Nat → Nat) : Nat → Nat → Nat → Option Nat
  | _, 0, cluster => some cluster
  | k, n + 1, cluster =>
    if link k cluster > 0x0ffffff7 then none else soughtOn link (k + 1) n (link k cluster)

/-- The scan from a cluster and a position, the k-th transfer its next, comes to an entry in use
    before the links or a failed read end it. -/
inductive Comes (fsbi : SbInfo) (ok : Nat → Bool) (link : Nat → Nat → Nat) (view : Nat → View) :
    Nat → Nat → Int → Prop where
  | here {k cluster : Nat} {position : Int} (read : ok k = true)
      (live : (liveIn fsbi view (cluster, position)).isSome = true) :
      Comes fsbi ok link view k cluster position
  | next {k cluster : Nat} {position : Int} (read : ok k = true)
      (none_ : liveIn fsbi view (cluster, position) = none)
      (more : link (k + 1) cluster < 0x0ffffff7)
      (later : Comes fsbi ok link view (k + 2) (link (k + 1) cluster) (passed fsbi position)) :
      Comes fsbi ok link view k cluster position

section scan
variable (fsbi : SbInfo) (w : World) (ok : Nat → Bool)

theorem runOn_readFATEntry (k cluster : Nat) :
    runOn ok (DISK1FAT32ReadFATEntry fsbi cluster) w k =
      some (linkOn fsbi w ok k cluster, w, k + 1) := by
  have zero : ∀ i, entryAt zeros i % 2 ^ 28 = 0 := fun i => rfl
  cases read : ok k with
  | true =>
    simp only [DISK1FAT32ReadFATEntry, runOn_bind, readSectors, runOn, linkOn, read, ↓reduceIte]
    rfl
  | false =>
    simp only [DISK1FAT32ReadFATEntry, runOn_bind, readSectors, runOn, linkOn, read,
      Bool.false_eq_true, ↓reduceIte, Option.bind_some, received, Option.getD_none]
    exact congrArg (fun entry => some (entry, w, k + 1)) (zero _)

theorem runOn_seekCluster (k n cluster : Nat) {r : Option Nat × World × Nat}
    (ran : runOn ok (seekCluster fsbi n cluster) w k = some r) :
    r.2.1 = w ∧ r.1 = soughtOn (linkOn fsbi w ok) k n cluster ∧ (r.1.isSome = true → r.2.2 = k + n) := by
  induction n generalizing k cluster with
  | zero =>
    cases ran
    exact ⟨rfl, rfl, fun _ => rfl⟩
  | succ n ih =>
    simp only [seekCluster, runOn_bind, runOn_readFATEntry, Option.bind_some] at ran
    by_cases stops : linkOn fsbi w ok k cluster > 0x0ffffff7
    · rw [if_pos stops] at ran
      cases ran
      rw [soughtOn, if_pos stops]
      exact ⟨rfl, rfl, fun none_ => by cases none_⟩
    · rw [if_neg stops] at ran
      obtain ⟨same, answer, count⟩ := ih (k + 1) _ ran
      rw [soughtOn, if_neg stops]
      exact ⟨same, answer, fun some_ => (count some_).trans (by omega)⟩

theorem runOn_readdirFrom (before block : Memory) (fuel k cluster : Nat) (position : Int)
    {r : (Option (View × Int) × Int) × World × Nat}
    (ran : runOn ok (readdirFrom fsbi before block fuel cluster position) w k = some r) :
    r.1.1.isSome = true ↔
      Comes fsbi ok (linkOn fsbi w ok) (viewOf fsbi w before block) k cluster position := by
  induction fuel generalizing block k cluster position with
  | zero => cases ran
  | succ fuel ih =>
    simp only [readdirFrom, runOn_bind, readSectors, runOn, Option.bind_some] at ran
    cases read : ok k with
    | false =>
      simp only [read, Bool.false_eq_true, ↓reduceIte] at ran
      cases ran
      constructor
      · intro some_
        cases some_
      · intro comes
        cases comes with
        | here done => simp [read] at done
        | next done => simp [read] at done
    | true =>
      simp only [read, ↓reduceIte] at ran
      have seen : firstLive (around before (copy (w.sectors (directorySector fsbi cluster)) 0 block
          0 (512 * fsbi.sectorPerCluster)))
          (entriesFrom fsbi (position.tmod fsbi.bytesPerCluster))
          (position.tmod fsbi.bytesPerCluster) =
          liveIn fsbi (viewOf fsbi w before block) (cluster, position) := rfl
      rw [seen] at ran
      cases live : liveIn fsbi (viewOf fsbi w before block) (cluster, position) with
      | some p =>
        rw [live] at ran
        cases ran
        exact ⟨fun _ => .here read (by rw [live]; rfl), fun _ => rfl⟩
      | none =>
        simp only [live, runOn_bind, runOn_readFATEntry, Option.bind_some] at ran
        by_cases more : linkOn fsbi w ok (k + 1) cluster < 0x0ffffff7
        · rw [if_pos more] at ran
          have rest := ih _ (k + 1 + 1) _ _ ran
          rw [viewOf_again] at rest
          refine rest.trans ⟨.next read live more, fun comes => ?_⟩
          cases comes with
          | here _ some_ => simp [live] at some_
          | next _ _ _ later => exact later
        · rw [if_neg more] at ran
          cases ran
          constructor
          · intro some_
            cases some_
          · intro comes
            cases comes with
            | here _ some_ => simp [live] at some_
            | next _ _ links => exact absurd links more

end scan

section exits
variable {choose : Finset Nat → Nat} (fresh : ∀ live, choose live ∉ live) {live : Finset Nat}
  {ok : Nat → Bool} {w : World} {k : Nat} {fsbi : SbInfo}

theorem runOn_last {α β : Type} {p : Prog α} {f : α → β} {r : β × World × Nat}
    (ran : runOn ok (p >>= fun a => pure (f a)) w k = some r) : ∃ a, r.1 = f a := by
  rw [runOn_bind] at ran
  obtain ⟨a, _, last⟩ := Option.bind_eq_some_iff.mp ran
  cases last
  exact ⟨a.1, rfl⟩

include fresh

theorem read_keeps_iff {inode : IndexNode} {buf count : Nat} {position : Int}
    {r : ((Int × Int) × Finset Nat) × World × Nat}
    (ran : runOn ok (FAT32Read choose fsbi inode buf count position live) w k = some r) :
    r.1.2 = live ↔ inode.firstCluster ≠ 0 := by
  rw [read_plain fresh] at ran
  obtain ⟨a, last⟩ := runOn_last ran
  rw [last]
  by_cases empty : inode.firstCluster = 0
  · simp [empty, Finset.insert_eq_self, fresh live]
  · simp [empty]

theorem write_keeps {inode : IndexNode} {buf count : Nat} {position : Int}
    {r : ((Int × IndexNode × Int) × Finset Nat) × World × Nat}
    (ran : runOn ok (FAT32Write choose fsbi inode buf count position live) w k = some r) :
    r.1.2 = live := by
  rw [write_plain fresh] at ran
  obtain ⟨a, last⟩ := runOn_last ran
  rw [last]

theorem readdir_keeps_iff {fuel firstCluster : Nat} {position : Int}
    {r : ((Option (List UInt8) × Int) × Finset Nat) × World × Nat}
    (ran : runOn ok (FAT32Readdir choose fuel fsbi firstCluster position live) w k = some r) :
    r.1.2 = live ↔ ∃ cluster,
      soughtOn (linkOn fsbi w ok) k (walkLength fsbi position) (firstCluster % 2 ^ 32) =
        some cluster ∧
      ¬ Comes fsbi ok (linkOn fsbi w ok) (shown fsbi w) (k + walkLength fsbi position)
        cluster position := by
  unfold FAT32Readdir at ran
  by_cases none_ : fsbi.bytesPerCluster = 0
  · rw [if_pos none_] at ran
    cases ran
  · simp only [none_, ↓reduceIte, kmalloc_before, plain_before, runOn_bind, alloc, runOn,
      Option.bind_some] at ran
    obtain ⟨⟨sought, w₁, k₁⟩, walked, ran⟩ := Option.bind_eq_some_iff.mp ran
    obtain ⟨same, answer, count⟩ := runOn_seekCluster _ _ _ _ _ _ walked
    dsimp only at same answer count ran
    have walk : soughtOn (linkOn fsbi w ok) k (walkLength fsbi position)
        (firstCluster % 2 ^ 32) = sought := answer.symm
    rw [walk]
    cases sought with
    | none =>
      cases ran
      simp [Finset.insert_eq_self, fresh live]
    | some cluster =>
      simp only [plain_before, runOn_bind] at ran
      obtain ⟨⟨⟨entry, position'⟩, w₂, k₂⟩, scanned, ran⟩ := Option.bind_eq_some_iff.mp ran
      have met := runOn_readdirFrom _ _ _ _ _ _ _ _ _ scanned
      rw [same, count rfl] at met
      have comes : entry.isSome = true ↔ Comes fsbi ok (linkOn fsbi w ok) (shown fsbi w)
          (k + walkLength fsbi position) cluster position := met
      simp only [Option.some.injEq, exists_eq_left', ← comes]
      cases entry with
      | none =>
        cases ran
        simp [Finset.erase_insert (fresh live)]
      | some entry =>
        dsimp only at ran
        cases named : readdirName fuel entry.1 entry.2 with
        | none =>
          rw [named] at ran
          cases ran
        | some name =>
          rw [named] at ran
          cases ran
          have taken : choose live ∈ insert (choose (insert (choose live) live))
              (insert (choose live) live) :=
            Finset.mem_insert_of_mem (Finset.mem_insert_self _ _)
          simp only [Option.isSome_some, not_true_eq_false, iff_false]
          intro kept
          change insert _ (insert _ live) = live at kept
          rw [kept] at taken
          exact fresh live taken

end exits

def above (live : Finset Nat) : Nat := live.sup id + 1

theorem above_fresh (live : Finset Nat) : above live ∉ live := by
  intro taken
  have below : live.sup id + 1 ≤ live.sup id := Finset.le_sup (f := id) taken
  omega

/-- Which calls leave the heap as it was, whichever transfers fail: FAT32_read of a file with a
    cluster, every FAT32_write, and FAT32_readdir where the walk gets to the cluster of the position
    and no entry in use is met from there. -/
theorem fat32_calls_keep_iff {choose : Finset Nat → Nat} (fresh : ∀ live, choose live ∉ live)
    (live : Finset Nat) (ok : Nat → Bool) (w : World) (k : Nat) :
    (∀ fsbi inode buf count position r,
      runOn ok (FAT32Read choose fsbi inode buf count position live) w k = some r →
        (r.1.2 = live ↔ inode.firstCluster ≠ 0)) ∧
    (∀ fsbi inode buf count position r,
      runOn ok (FAT32Write choose fsbi inode buf count position live) w k = some r →
        r.1.2 = live) ∧
    ∀ fuel fsbi firstCluster position r,
      runOn ok (FAT32Readdir choose fuel fsbi firstCluster position live) w k = some r →
        (r.1.2 = live ↔ ∃ cluster,
          soughtOn (linkOn fsbi w ok) k (walkLength fsbi position) (firstCluster % 2 ^ 32) =
            some cluster ∧
          ¬ Comes fsbi ok (linkOn fsbi w ok) (shown fsbi w)
            (k + walkLength fsbi position) cluster position) :=
  ⟨fun _ _ _ _ _ _ ran => read_keeps_iff fresh ran, fun _ _ _ _ _ _ ran => write_keeps fresh ran,
    fun _ _ _ _ _ ran => readdir_keeps_iff fresh ran⟩

theorem fat32_calls_keep_iff_none :
    (∀ fsbi inode buf count position r,
      runOn (fun _ => true) (FAT32Read above fsbi inode buf count position ∅)
        ⟨zeros, zeros, [], [], []⟩ 0 = some r → (r.1.2 = ∅ ↔ inode.firstCluster ≠ 0)) ∧
    (∀ fsbi inode buf count position r,
      runOn (fun _ => true) (FAT32Write above fsbi inode buf count position ∅)
        ⟨zeros, zeros, [], [], []⟩ 0 = some r → r.1.2 = ∅) ∧
    ∀ fuel fsbi firstCluster position r,
      runOn (fun _ => true) (FAT32Readdir above fuel fsbi firstCluster position ∅)
        ⟨zeros, zeros, [], [], []⟩ 0 = some r →
        (r.1.2 = ∅ ↔ ∃ cluster,
          soughtOn (linkOn fsbi ⟨zeros, zeros, [], [], []⟩ fun _ => true) 0
            (walkLength fsbi position) (firstCluster % 2 ^ 32) = some cluster ∧
          ¬ Comes fsbi (fun _ => true) (linkOn fsbi ⟨zeros, zeros, [], [], []⟩ fun _ => true)
            (shown fsbi ⟨zeros, zeros, [], [], []⟩) (0 + walkLength fsbi position) cluster
            position) :=
  fat32_calls_keep_iff above_fresh ∅ (fun _ => true) ⟨zeros, zeros, [], [], []⟩ 0

theorem blocks_lost :
    (¬ ∀ (choose : Finset Nat → Nat), (∀ live, choose live ∉ live) →
      ∀ live ok w k fsbi inode buf count position r,
        runOn ok (FAT32Read choose fsbi inode buf count position live) w k = some r →
          r.1.2 = live) ∧
    ¬ ∀ (choose : Finset Nat → Nat), (∀ live, choose live ∉ live) →
      ∀ live ok w k fuel fsbi firstCluster position r,
        runOn ok (FAT32Readdir choose fuel fsbi firstCluster position live) w k = some r →
          r.1.2 = live := by
  constructor
  · intro claim
    exact Finset.insert_ne_empty _ _ (claim above above_fresh ∅ (fun _ => true) (directoryDisk []) 0
      oneSectorVolume ⟨0, 0, 2, 0⟩ 4096 1 0 _ rfl)
  · intro claim
    exact Finset.insert_ne_empty _ _ (claim above above_fresh ∅ (fun _ => true)
      (directoryDisk readmeEntry) 0 1 oneSectorVolume 2 0 _ rfl)

end KeptBlocks

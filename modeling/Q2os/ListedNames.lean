import Q2os.DirectorySearch
import Q2os.OwnNames

/- FAT32_readdir and FAT32_lookup side by side: where an entry that the one reports lies, and
   when the other finds that entry by the reported name. -/
namespace NameMatching
open ByteMemory BlockProgram Fat32

structure Formatted (fsbi : SbInfo) : Prop where
  bytes : fsbi.bytesPerCluster = 512 * fsbi.sectorPerCluster
  some_sectors : 0 < fsbi.sectorPerCluster

theorem firstLive_some {v : View} {n : Nat} {i p : Int} (first : firstLive v n i = some p) :
    live v p = true ∧ ∃ t < n, p = i + 32 * (t : Int) := by
  induction n generalizing i with
  | zero => cases first
  | succ n ih =>
    simp only [firstLive] at first
    by_cases here : live v i = true
    · rw [if_pos here] at first
      cases first
      exact ⟨here, 0, by omega, by omega⟩
    · rw [if_neg here] at first
      obtain ⟨in_use, t, within, place⟩ := ih first
      exact ⟨in_use, t + 1, by omega, by omega⟩

theorem entriesFrom_eq {fsbi : SbInfo} (formatted : Formatted fsbi) {i : Int}
    (aligned : i % 32 = 0) (below : i < fsbi.bytesPerCluster) :
    32 * (entriesFrom fsbi i : Int) = fsbi.bytesPerCluster - i := by
  have bytes := formatted.bytes
  unfold entriesFrom
  omega

theorem Formatted.some_bytes {fsbi : SbInfo} (formatted : Formatted fsbi) :
    0 < fsbi.bytesPerCluster := by
  have bytes := formatted.bytes
  have some_sectors := formatted.some_sectors
  omega

theorem offset_aligned {fsbi : SbInfo} (formatted : Formatted fsbi) {position : Int}
    (aligned : position % 32 = 0) :
    position.tmod fsbi.bytesPerCluster % 32 = 0 ∧
      position.tmod fsbi.bytesPerCluster < fsbi.bytesPerCluster := by
  have divides : (32 : Int) ∣ fsbi.bytesPerCluster := by
    have bytes := formatted.bytes
    omega
  have whole := Int.mul_tdiv_add_tmod position fsbi.bytesPerCluster
  have part := Int.emod_eq_zero_of_dvd
    (Int.dvd_trans divides (Int.dvd_mul_right _ (position.tdiv fsbi.bytesPerCluster)))
  exact ⟨by omega, Int.tmod_lt_of_pos position (Int.natCast_pos.mpr formatted.some_bytes)⟩

theorem position_next {fsbi : SbInfo} (formatted : Formatted fsbi) {position : Int}
    (aligned : position % 32 = 0) :
    position + 32 * (entriesFrom fsbi (position.tmod fsbi.bytesPerCluster) : Int) =
      (position.tdiv fsbi.bytesPerCluster + 1) * fsbi.bytesPerCluster := by
  obtain ⟨on_entry, below⟩ := offset_aligned formatted aligned
  have entries := entriesFrom_eq formatted on_entry below
  have whole := Int.mul_tdiv_add_tmod position fsbi.bytesPerCluster
  rw [Int.add_mul, Int.one_mul, Int.mul_comm (position.tdiv fsbi.bytesPerCluster)]
  omega

/- The loop over the clusters stops at an entry in use; one before the buffer is met with the first
   cluster only. -/
theorem readdirFrom_run {fsbi : SbInfo} (formatted : Formatted fsbi) {w w' : World}
    {before block : Memory} {fuel cluster : Nat} {position position' : Int} {v : View} {p : Int}
    (aligned : position % 32 = 0)
    (ran : run (readdirFrom fsbi before block fuel cluster position) w =
      some ((some (v, p), position'), w')) :
    w' = w ∧ ∃ k c : Nat, (directoryClusters fsbi w fuel cluster)[k]? = some c ∧
      v = viewOf fsbi w before block c ∧ live v p = true ∧ p % 32 = 0 ∧
      p < fsbi.bytesPerCluster ∧ (p < 0 → k = 0 ∧ position.tmod fsbi.bytesPerCluster < 0) ∧
      position' = (position.tdiv fsbi.bytesPerCluster + k) * fsbi.bytesPerCluster + p + 32 := by
  have positive : (0 : Int) < fsbi.bytesPerCluster := Int.natCast_pos.mpr formatted.some_bytes
  induction fuel generalizing block cluster position with
  | zero => simp [readdirFrom, run] at ran
  | succ fuel ih =>
    simp only [readdirFrom, run_bind, readSectors, run, Option.bind_some] at ran
    obtain ⟨start, below⟩ := offset_aligned formatted aligned
    cases first : firstLive (viewOf fsbi w before block cluster)
        (entriesFrom fsbi (position.tmod fsbi.bytesPerCluster))
        (position.tmod fsbi.bytesPerCluster) with
    | some q =>
      have found := first
      unfold viewOf at found
      rw [found] at ran
      simp only [pure, run, Option.some.injEq, Prod.mk.injEq] at ran
      obtain ⟨⟨⟨view, place⟩, moved⟩, same⟩ := ran
      obtain ⟨in_use, t, within, byte⟩ := firstLive_some first
      have entries := entriesFrom_eq formatted start below
      have whole := Int.mul_tdiv_add_tmod position fsbi.bytesPerCluster
      rw [viewOf, view, place] at in_use
      refine ⟨same.symm, 0, cluster, rfl, view.symm, in_use, by omega, by omega,
        fun low => ⟨rfl, by omega⟩, ?_⟩
      rw [Int.natCast_zero, Int.add_zero, Int.mul_comm]
      omega
    | none =>
      have found := first
      unfold viewOf at found
      rw [found] at ran
      simp only [run_bind, run_readFATEntry, Option.bind_some] at ran
      by_cases more : fatEntry fsbi w cluster < 0x0ffffff7
      · rw [if_pos more, position_next formatted aligned] at ran
        have next_aligned :
            (position.tdiv fsbi.bytesPerCluster + 1) * fsbi.bytesPerCluster % 32 = 0 := by
          rw [← position_next formatted aligned]
          omega
        obtain ⟨same, k, c, at_, view, in_use, on_entry, inside, low, moved⟩ :=
          ih next_aligned ran
        rw [Int.mul_tdiv_cancel _ (Int.ne_of_gt positive)] at moved
        have start_of_cluster : 0 ≤ p := by
          by_contra before_buffer
          have negative := (low (Int.not_le.mp before_buffer)).2
          rw [Int.mul_tmod_left] at negative
          exact absurd negative (Int.lt_irrefl 0)
        refine ⟨same, k + 1, c, ?_, ?_, in_use, on_entry, inside, fun _ => by omega, ?_⟩
        · rw [directoryClusters, if_pos more, List.getElem?_cons_succ]
          exact at_
        · rw [view, viewOf, copy_over, viewOf]
        · rw [moved, Int.natCast_add, Int.natCast_one, Int.add_assoc _ 1, Int.add_comm 1]
      · rw [if_neg more] at ran
        simp [pure, run] at ran

theorem seekCluster_run {fsbi : SbInfo} {w w' : World} {n m cluster c : Nat}
    (sound : ∀ x ∈ directoryClusters fsbi w (n + m) cluster, fatEntry fsbi w x ≠ 0x0ffffff7)
    (ran : run (seekCluster fsbi n cluster) w = some (some c, w')) :
    w' = w ∧ ∀ k, (directoryClusters fsbi w m c)[k]? =
      (directoryClusters fsbi w (n + m) cluster)[n + k]? := by
  induction n generalizing cluster with
  | zero =>
    simp only [seekCluster, pure, run, Option.some.injEq, Prod.mk.injEq] at ran
    obtain ⟨here, same⟩ := ran
    rw [here]
    exact ⟨same.symm, fun k => by simp only [Nat.zero_add]⟩
  | succ n ih =>
    simp only [seekCluster, run_bind, run_readFATEntry, Option.bind_some] at ran
    by_cases stops : fatEntry fsbi w cluster > 0x0ffffff7
    · rw [if_pos stops] at ran
      simp [pure, run] at ran
    · rw [if_neg stops] at ran
      have clusters : directoryClusters fsbi w (n + 1 + m) cluster = cluster ::
          if fatEntry fsbi w cluster < 0x0ffffff7 then
            directoryClusters fsbi w (n + m) (fatEntry fsbi w cluster)
          else [] := by
        rw [Nat.add_right_comm]
        rfl
      have no_mark := sound cluster (by simp [clusters])
      have more : fatEntry fsbi w cluster < 0x0ffffff7 := by omega
      rw [if_pos more] at clusters
      rw [clusters] at sound
      obtain ⟨same, rest⟩ := ih (fun x member => sound x (List.mem_cons_of_mem _ member)) ran
      refine ⟨same, fun k => ?_⟩
      rw [rest k, clusters, Nat.add_right_comm, List.getElem?_cons_succ]

/- The entry reported with a new position lies in the buffer of its cluster. From a negative
   position it may lie before it. -/
def InItsCluster (fsbi : SbInfo) (position position' : Int) : Prop :=
  0 ≤ position ∨ position.tdiv fsbi.bytesPerCluster * fsbi.bytesPerCluster ≤ position' - 32

def clusterNumber (fsbi : SbInfo) (position position' : Int) : Nat :=
  walkLength fsbi position +
    ((position' - 32) / fsbi.bytesPerCluster - position.tdiv fsbi.bytesPerCluster).toNat

def byteNumber (fsbi : SbInfo) (position' : Int) : Nat :=
  ((position' - 32) % fsbi.bytesPerCluster).toNat

/-- What FAT32_readdir reports is the name of the entry in use just before its new position. -/
theorem readdir_run {fsbi : SbInfo} (formatted : Formatted fsbi) {w w' : World}
    {fuel firstCluster : Nat} {position position' : Int} {name : List UInt8}
    (aligned : position % 32 = 0) (inside : InItsCluster fsbi position position')
    (sound : ∀ x ∈ directoryClusters fsbi w (walkLength fsbi position + fuel)
      (firstCluster % 2 ^ 32), fatEntry fsbi w x ≠ 0x0ffffff7)
    (ran : run (FAT32Readdir fuel fsbi firstCluster position) w =
      some ((some name, position'), w')) :
    ∃ c, (directoryClusters fsbi w (walkLength fsbi position + fuel)
        (firstCluster % 2 ^ 32))[clusterNumber fsbi position position']? = some c ∧
      byteNumber fsbi position' % 32 = 0 ∧ byteNumber fsbi position' < fsbi.bytesPerCluster ∧
      live (viewOf fsbi w (heapBefore w) (heapBlock w) c) (byteNumber fsbi position') = true ∧
      readdirName fuel (viewOf fsbi w (heapBefore w) (heapBlock w) c)
        (byteNumber fsbi position') = some name := by
  have positive : (0 : Int) < fsbi.bytesPerCluster := Int.natCast_pos.mpr formatted.some_bytes
  have disk := @directoryClusters_disk fsbi { w with fresh := w.fresh.tail.tail } w rfl
  simp only [FAT32Readdir, Nat.ne_of_gt formatted.some_bytes, ↓reduceIte, run_bind, alloc, run,
    Option.bind_some] at ran
  obtain ⟨⟨sought, w₂⟩, seek, ran⟩ := Option.bind_eq_some_iff.mp ran
  cases sought with
  | none => simp [pure, run] at ran
  | some cluster =>
    simp only [run_bind] at ran
    obtain ⟨⟨⟨entry, moved⟩, w₃⟩, loop, ran⟩ := Option.bind_eq_some_iff.mp ran
    cases entry with
    | none => simp [pure, run] at ran
    | some entry =>
      obtain ⟨v, p⟩ := entry
      dsimp only at ran loop seek
      cases named : readdirName fuel v p with
      | none => simp [named, run] at ran
      | some given =>
        simp only [named, pure, run, Option.some.injEq, Prod.mk.injEq] at ran
        obtain ⟨⟨same_name, same_position⟩, _⟩ := ran
        obtain ⟨same, chain⟩ := @seekCluster_run fsbi { w with fresh := w.fresh.tail.tail } w₂
          (walkLength fsbi position) fuel (firstCluster % 2 ^ 32) cluster
          (by rw [disk]; exact sound) seek
        rw [same] at loop
        obtain ⟨_, k, c, at_, view, in_use, on_entry, below, low, last⟩ :=
          readdirFrom_run formatted aligned loop
        rw [same_position] at last
        have start : 0 ≤ p := by
          by_contra before_buffer
          obtain ⟨first, negative⟩ := low (Int.not_le.mp before_buffer)
          rw [first, Int.natCast_zero, Int.add_zero] at last
          rcases inside with forward | within
          · exact absurd (Int.tmod_nonneg _ forward) (Int.not_le.mpr negative)
          · omega
        have listed := (chain k).symm.trans at_
        have back : position' - 32 =
            p + (position.tdiv fsbi.bytesPerCluster + k) * fsbi.bytesPerCluster := by omega
        have cluster_at : clusterNumber fsbi position position' = walkLength fsbi position + k := by
          rw [clusterNumber, back, Int.add_mul_ediv_right _ _ (Int.ne_of_gt positive),
            Int.ediv_eq_zero_of_lt start below]
          omega
        have byte_at : (byteNumber fsbi position' : Int) = p := by
          rw [byteNumber, back, Int.add_mul_emod_self_right, Int.emod_eq_of_lt start below,
            Int.toNat_of_nonneg start]
        rw [view, ← byte_at] at in_use named
        rw [cluster_at]
        refine ⟨c, ?_, by omega, by omega, in_use, ?_⟩
        · rw [← listed, disk]
        · rw [← same_name]
          exact named

theorem viewOf_inside (fsbi : SbInfo) (w : World) (before block : Memory) (cluster : Nat)
    {i : Int} (start : 0 ≤ i) (inside : i < 512 * fsbi.sectorPerCluster) :
    viewOf fsbi w before block cluster i =
      w.disk (512 * directorySector fsbi cluster + i.toNat) := by
  have bound : i.toNat < 512 * fsbi.sectorPerCluster := by omega
  simp [viewOf, around, start, copy, bound, World.sectors]

theorem foundAt_congr {v v' : View} {cluster : Nat} {p : Int}
    (same : ∀ i, p ≤ i → i < p + 32 → v i = v' i) : foundAt v cluster p = foundAt v' cluster p := by
  have byte : ∀ k : Int, 0 ≤ k → k < 32 → byteAt v (p + k) = byteAt v' (p + k) := by
    intro k low high
    rw [byteAt, byteAt, same (p + k) (by omega) (by omega)]
  have word : ∀ k : Int, 0 ≤ k → k + 1 < 32 → wordAt v (p + k) = wordAt v' (p + k) := by
    intro k low high
    rw [wordAt, wordAt, Int.add_assoc, byte k low (by omega), byte (k + 1) (by omega) high]
  have attr : dirAttr v p = dirAttr v' p := byte 11 (by omega) (by omega)
  have directory : isDirectory v p = isDirectory v' p := by
    unfold isDirectory
    rw [attr]
  have high : dirFstClusHI v p = dirFstClusHI v' p := word 20 (by omega) (by omega)
  have low : dirFstClusLO v p = dirFstClusLO v' p := word 26 (by omega) (by omega)
  have size : dirFileSize v p = dirFileSize v' p := by
    simp only [dirFileSize, word 28 (by omega) (by omega), word 30 (by omega) (by omega)]
  unfold foundAt
  rw [directory, high, low, size]

/- The entry at byte offset of the cluster comes before all others that look like the name. -/
def Unmistaken (v : Nat → View) (d : Component) (entries : List (Nat × Int)) (cluster : Nat)
    (offset : Nat) : Prop :=
  ∃ before after, entries = before ++ (cluster, (offset : Int)) :: after ∧
    ∀ e ∈ before, ¬ Alike (v e.1) e.2 d

theorem find_first_iff (fsbi : SbInfo) (w : World) (before block : Memory) (d : Component)
    (entries : List (Nat × Int)) (cluster offset : Nat) :
    entries.find? (Taken fsbi w before block d) = some (cluster, (offset : Int)) ↔
      Alike (viewOf fsbi w before block cluster) offset d ∧
        Unmistaken (viewOf fsbi w before block) d entries cluster offset := by
  rw [List.find?_eq_some_iff_append, taken_iff]
  apply and_congr_right'
  constructor
  · intro found
    obtain ⟨earlier, later, parts, skipped⟩ := found
    refine ⟨earlier, later, parts, fun e member taken => ?_⟩
    have skips := skipped e member
    rw [(taken_iff fsbi w before block d e).mpr taken] at skips
    cases skips
  · intro first
    obtain ⟨earlier, later, parts, skipped⟩ := first
    refine ⟨earlier, later, parts, fun e member => ?_⟩
    have skips := mt (taken_iff fsbi w before block d e).mp (skipped e member)
    simpa using skips

theorem entriesOf_mem (cluster : Nat) {n t : Nat} (i : Int) (within : t < n) :
    (cluster, i + 32 * (t : Int)) ∈ entriesOf cluster n i := by
  induction n generalizing i t with
  | zero => omega
  | succ n ih =>
    cases t with
    | zero => simp [entriesOf]
    | succ t =>
      have place : i + 32 * ((t + 1 : Nat) : Int) = i + 32 + 32 * (t : Int) := by omega
      rw [place]
      exact List.mem_cons_of_mem _ (ih (i + 32) (by omega))

/-- A directory as the two functions find it: no bad cluster on its chain, every entry in use
    formatted. Readers see it through a heap of their own. -/
structure WellFormed (fsbi : SbInfo) (w : World) (fuel rounds firstCluster : Nat) : Prop where
  sound : ∀ x ∈ directoryClusters fsbi w rounds (firstCluster % 2 ^ 32),
    fatEntry fsbi w x ≠ 0x0ffffff7
  named : ∀ e ∈ directoryEntries fsbi w rounds firstCluster,
    live (viewOf fsbi w (heapBefore w) (heapBlock w) e.1) e.2 = true →
      WellNamed (viewOf fsbi w (heapBefore w) (heapBlock w) e.1) fuel e.2

def Opens (fsbi : SbInfo) (w opener : World) (firstCluster : Nat) (d : Component)
    (cluster offset : Nat) : Prop :=
  ∃ rounds opened, run (FAT32Lookup rounds fsbi firstCluster d) opener = some
    (some (foundAt (viewOf fsbi w (heapBefore w) (heapBlock w) cluster) cluster offset), opened)

theorem viewOf_same {fsbi : SbInfo} (formatted : Formatted fsbi) {w opener : World}
    (same : opener.disk = w.disk) (cluster : Nat) {i : Int} (start : 0 ≤ i)
    (inside : i < fsbi.bytesPerCluster) :
    viewOf fsbi w (heapBefore w) (heapBlock w) cluster i =
      viewOf fsbi opener (heapBefore opener) (heapBlock opener) cluster i := by
  have bytes := formatted.bytes
  rw [viewOf_inside _ _ _ _ _ start (by omega), viewOf_inside _ _ _ _ _ start (by omega), same]

theorem opens_iff {fsbi : SbInfo} (formatted : Formatted fsbi) {w opener : World}
    (same : opener.disk = w.disk) (firstCluster : Nat) (d : Component) {cluster offset : Nat}
    (inside : offset + 32 ≤ fsbi.bytesPerCluster) (on_entry : offset % 32 = 0) :
    Opens fsbi w opener firstCluster d cluster offset ↔
      Alike (viewOf fsbi opener (heapBefore opener) (heapBlock opener) cluster) offset d ∧
      ∃ rounds, Unmistaken (viewOf fsbi opener (heapBefore opener) (heapBlock opener)) d
        (directoryEntries fsbi opener rounds firstCluster) cluster offset := by
  have reads : foundAt (viewOf fsbi w (heapBefore w) (heapBlock w) cluster) cluster offset =
      foundAt (viewOf fsbi opener (heapBefore opener) (heapBlock opener) cluster) cluster offset :=
    foundAt_congr fun i low high =>
      viewOf_same formatted same cluster (by omega) (by omega)
  unfold Opens
  rw [reads]
  simp only [lookup_run]
  constructor
  · intro found
    obtain ⟨rounds, e, at_, made⟩ := found
    obtain ⟨m, aligned_at⟩ := directoryEntries_aligned (List.mem_of_find?_eq_some at_)
    have inodes := congrArg Found.inode made
    have location := congrArg IndexNode.dentryLocation inodes
    have index := congrArg IndexNode.dentryPosition inodes
    simp only [foundAt] at location index
    have byte : e.2 = (offset : Int) := by omega
    have place : e = (cluster, (offset : Int)) := Prod.ext location.symm byte
    rw [place] at at_
    obtain ⟨alike, first⟩ := (find_first_iff _ _ _ _ _ _ _ _).mp at_
    exact ⟨alike, rounds, first⟩
  · intro both
    obtain ⟨alike, rounds, first⟩ := both
    exact ⟨rounds, _, (find_first_iff _ _ _ _ _ _ _ _).mpr ⟨alike, first⟩, rfl⟩

/-- Opening the name FAT32_readdir reported gives back the entry it came from exactly if that
    entry goes with its own name and none before it looks like the name. -/
theorem listed_name_opens_iff {fsbi : SbInfo} (formatted : Formatted fsbi) {w w' opener : World}
    (same : opener.disk = w.disk) {fuel firstCluster : Nat} {position position' : Int}
    {name : List UInt8} (aligned : position % 32 = 0)
    (inside : InItsCluster fsbi position position')
    (well : WellFormed fsbi w fuel (walkLength fsbi position + fuel) firstCluster)
    (listed : run (FAT32Readdir fuel fsbi firstCluster position) w =
      some ((some name, position'), w'))
    (d : Component) (named : d.text = name) :
    ∃ cluster offset, (directoryClusters fsbi w (walkLength fsbi position + fuel)
        (firstCluster % 2 ^ 32))[clusterNumber fsbi position position']? = some cluster ∧
      offset = byteNumber fsbi position' ∧
      (Opens fsbi w opener firstCluster d cluster offset ↔
        OwnName fuel (viewOf fsbi w (heapBefore w) (heapBlock w) cluster)
          (viewOf fsbi opener (heapBefore opener) (heapBlock opener) cluster) offset d ∧
        ∃ rounds, Unmistaken (viewOf fsbi opener (heapBefore opener) (heapBlock opener)) d
          (directoryEntries fsbi opener rounds firstCluster) cluster offset) := by
  obtain ⟨cluster, cluster_at, on_entry, below, in_use, reported⟩ :=
    readdir_run formatted aligned inside well.sound listed
  refine ⟨cluster, _, cluster_at, rfl, ?_⟩
  generalize byteNumber fsbi position' = offset at *
  have bytes := formatted.bytes
  have room : offset + 32 ≤ fsbi.bytesPerCluster := by omega
  have entries := entriesFrom_eq formatted (i := 0) rfl (Int.natCast_pos.mpr formatted.some_bytes)
  have member : (cluster, (offset : Int)) ∈ directoryEntries fsbi w
      (walkLength fsbi position + fuel) firstCluster := by
    apply List.mem_flatMap.mpr
    have place : (offset : Int) = 0 + 32 * ((offset / 32 : Nat) : Int) := by omega
    rw [place]
    exact ⟨cluster, List.mem_of_getElem? cluster_at, entriesOf_mem cluster 0 (by omega)⟩
  have proper : WellNamed (viewOf fsbi w (heapBefore w) (heapBlock w) cluster) fuel offset :=
    well.named (cluster, (offset : Int)) member in_use
  have shared : ∀ i : Int, 0 ≤ i → i < (offset : Int) + 32 →
      viewOf fsbi w (heapBefore w) (heapBlock w) cluster i =
        viewOf fsbi opener (heapBefore opener) (heapBlock opener) cluster i :=
    fun i low high => viewOf_same formatted same cluster low (by omega)
  have own := own_name_iff (Int.natCast_nonneg offset) shared proper reported named
  have also_live : live (viewOf fsbi opener (heapBefore opener) (heapBlock opener) cluster)
      offset = true := by
    have attr := viewOf_same formatted same cluster (i := offset + 11) (by omega) (by omega)
    have first := viewOf_same formatted same cluster (i := offset + (0 : Nat)) (by omega)
      (by omega)
    have live_eq : live (viewOf fsbi w (heapBefore w) (heapBlock w) cluster) offset =
        live (viewOf fsbi opener (heapBefore opener) (heapBlock opener) cluster) offset := by
      unfold live dirAttr dirName byteAt
      rw [attr, first]
    rw [← live_eq]
    exact in_use
  rw [opens_iff formatted same firstCluster d room on_entry, ← own]
  simp only [Alike, also_live, true_and]

theorem oneSector_formatted : Formatted oneSectorVolume := ⟨rfl, by decide⟩

theorem single_wellFormed {entry : List UInt8}
    (sound : ∀ x ∈ directoryClusters oneSectorVolume (directoryDisk entry) 1 2,
      fatEntry oneSectorVolume (directoryDisk entry) x ≠ 0x0ffffff7)
    (one : ∀ e ∈ directoryEntries oneSectorVolume (directoryDisk entry) 1 2,
      live (viewOf oneSectorVolume (directoryDisk entry) zeros zeros e.1) e.2 = true → e = (2, 0))
    (short : longSlot (viewOf oneSectorVolume (directoryDisk entry) zeros zeros 2) (0 - 32) = false)
    (padded : Padded (viewOf oneSectorVolume (directoryDisk entry) zeros zeros 2) 0) :
    WellFormed oneSectorVolume (directoryDisk entry) 1 1 2 := by
  refine ⟨sound, fun e member in_use => ?_⟩
  rw [one e member in_use]
  exact ⟨fun _ => padded, fun n long => absurd (long.symm.trans short) (by decide)⟩

theorem readme_wellFormed :
    WellFormed oneSectorVolume (directoryDisk readmeEntry) 1 1 2 :=
  single_wellFormed (by decide +kernel) (by decide +kernel) (by decide +kernel)
    ⟨by decide +kernel, by decide +kernel⟩

def readmeTxt : Component :=
  componentOf [0x52, 0x45, 0x41, 0x44, 0x4d, 0x45, 0x2e, 0x54, 0x58, 0x54]
    (by decide) (by decide +kernel)

theorem listed_first (entry : List UInt8) (d : Component)
    (answer : (run (FAT32Readdir 1 oneSectorVolume 2 0) (directoryDisk entry)).map (·.1) =
      some (some d.text, 32)) :
    ∃ w', run (FAT32Readdir 1 oneSectorVolume 2 0) (directoryDisk entry) =
      some ((some d.text, 32), w') := by
  obtain ⟨⟨_, w'⟩, ran, rfl⟩ := Option.map_eq_some_iff.mp answer
  exact ⟨w', ran⟩

theorem listed_name_opens_readme :
    ∃ cluster offset, (directoryClusters oneSectorVolume (directoryDisk readmeEntry) 1
        2)[0]? = some cluster ∧ offset = 0 ∧
      (Opens oneSectorVolume (directoryDisk readmeEntry) (directoryDisk readmeEntry) 2 readmeTxt
          cluster offset ↔
        OwnName 1 (viewOf oneSectorVolume (directoryDisk readmeEntry) zeros zeros cluster)
          (viewOf oneSectorVolume (directoryDisk readmeEntry) zeros zeros cluster) offset
            readmeTxt ∧
        ∃ rounds, Unmistaken (viewOf oneSectorVolume (directoryDisk readmeEntry) zeros zeros)
          readmeTxt (directoryEntries oneSectorVolume (directoryDisk readmeEntry) rounds 2)
          cluster offset) := by
  obtain ⟨w', listed⟩ := listed_first readmeEntry readmeTxt (by decide +kernel)
  have walk : walkLength oneSectorVolume 0 = 0 := by decide +kernel
  have number : clusterNumber oneSectorVolume 0 32 = 0 := by decide +kernel
  have byte : byteNumber oneSectorVolume 32 = 0 := by decide +kernel
  have found := listed_name_opens_iff oneSector_formatted rfl (by decide)
    (Or.inl (Int.le_refl 0)) (by rw [walk]; exact readme_wellFormed) listed readmeTxt rfl
  rw [walk, number, byte] at found
  exact found

def mainEntry : List UInt8 :=
  [0x4d, 0x41, 0x49, 0x4e, 0x20, 0x20, 0x20, 0x20, 0x43, 0x20, 0x20, 0x20]

def mainC : Component :=
  componentOf [0x4d, 0x41, 0x49, 0x4e, 0x2e, 0x43] (by decide) (by decide +kernel)

/- MAIN.C is listed and cannot be opened. -/
theorem listed_name_lost :
    ¬ ∀ (fsbi : SbInfo) (w w' opener : World) (fuel firstCluster : Nat) (position position' : Int)
      (name : List UInt8) (d : Component) (cluster offset : Nat), Formatted fsbi →
      opener.disk = w.disk → position % 32 = 0 → InItsCluster fsbi position position' →
      WellFormed fsbi w fuel (walkLength fsbi position + fuel) firstCluster →
      run (FAT32Readdir fuel fsbi firstCluster position) w =
        some ((some name, position'), w') → d.text = name →
      (directoryClusters fsbi w (walkLength fsbi position + fuel)
        (firstCluster % 2 ^ 32))[clusterNumber fsbi position position']? = some cluster →
      offset = byteNumber fsbi position' →
      Opens fsbi w opener firstCluster d cluster offset := by
  intro opens
  have well : WellFormed oneSectorVolume (directoryDisk mainEntry) 1 1 2 :=
    single_wellFormed (by decide +kernel) (by decide +kernel) (by decide +kernel)
      ⟨by decide +kernel, by decide +kernel⟩
  obtain ⟨w', listed⟩ := listed_first mainEntry mainC (by decide +kernel)
  have walk : walkLength oneSectorVolume 0 = 0 := by decide +kernel
  have found := opens oneSectorVolume (directoryDisk mainEntry) w' (directoryDisk mainEntry) 1 2 0
    32 _ mainC 2 0 oneSector_formatted rfl (by decide) (Or.inl (Int.le_refl 0))
    (by rw [walk]; exact well) listed rfl (by decide +kernel) (by decide +kernel)
  obtain ⟨alike, _⟩ := (opens_iff oneSector_formatted rfl 2 mainC (by decide) rfl).mp found
  have taken := (compareName_iff _ _ _).mpr alike.2
  exact absurd taken (by decide +kernel)

end NameMatching

import Q2os.PieceWrites

/- fat32_write_inode after FAT32_lookup: the fields of the entry it sets, and what the next lookup
   of the name makes of them. -/
namespace EntryRoundTrip
open ByteMemory BlockProgram Fat32 NameMatching

/- What lies right before a buffer is no long slot. -/
def Quiet (before : Memory) : Prop := lookupSlot (around before zeros) (-32) = false

/-- All that differs is the first cluster and the size in the entry at place idx of a cluster. -/
def EntryOnly (fsbi : SbInfo) (w w' : World) (location idx : Nat) : Prop :=
  let entry := 512 * clusterSector fsbi location + 32 * idx
  ∀ x, x < entry + 20 ∨ (entry + 22 ≤ x ∧ x < entry + 26) ∨ entry + 32 ≤ x → w'.disk x = w.disk x

def Within (fsbi : SbInfo) (p : Int) : Prop := (32 : Int) ∣ p ∧ 0 ≤ p ∧ p < fsbi.bytesPerCluster

section fields
variable (buf : Memory) (a : Nat) (inode : IndexNode)

theorem updateDirectory_frame {i : Nat} (outside : i < a + 20 ∨ (a + 22 ≤ i ∧ i < a + 26) ∨
    a + 32 ≤ i) : updateDirectory buf a inode i = buf i := by
  unfold updateDirectory
  rw [setLittle_outside (by omega), setLittle_outside (by omega), setLittle_outside (by omega)]

theorem updateDirectory_fileSize :
    getLittle (updateDirectory buf a inode) (a + 28) 4 = inode.fileSize % 2 ^ 32 := by
  have kept : getLittle (updateDirectory buf a inode) (a + 28) 4 =
      getLittle (setLittle buf (a + 28) inode.fileSize 4) (a + 28) 4 := by
    apply getLittle_congr
    intro i within
    unfold updateDirectory
    rw [setLittle_outside (by omega), setLittle_outside (by omega)]
  rw [kept, getLittle_setLittle]
  rfl

theorem updateDirectory_low :
    getLittle (updateDirectory buf a inode) (a + 26) 2 = inode.firstCluster % 2 ^ 16 := by
  have kept : getLittle (updateDirectory buf a inode) (a + 26) 2 =
      getLittle (setLittle (setLittle buf (a + 28) inode.fileSize 4) (a + 26)
        (inode.firstCluster % 2 ^ 16) 2) (a + 26) 2 := by
    apply getLittle_congr
    intro i within
    unfold updateDirectory
    rw [setLittle_outside (by omega)]
  rw [kept, getLittle_setLittle]
  exact Nat.mod_mod _ _

theorem updateDirectory_high (small : inode.firstCluster < 2 ^ 28) :
    getLittle (updateDirectory buf a inode) (a + 20) 2 =
      getLittle buf (a + 20) 2 / 2 ^ 12 * 2 ^ 12 + inode.firstCluster / 2 ^ 16 := by
  have old := getLittle_lt buf (a + 20) 2
  have kept : getLittle (setLittle (setLittle buf (a + 28) inode.fileSize 4) (a + 26)
      (inode.firstCluster % 2 ^ 16) 2) (a + 20) 2 = getLittle buf (a + 20) 2 := by
    apply getLittle_congr
    intro i within
    rw [setLittle_outside (by omega), setLittle_outside (by omega)]
  have top : inode.firstCluster / 2 ^ 16 < 2 ^ 12 := by omega
  have word : (256 : Nat) ^ 2 = 2 ^ 16 := by decide
  rw [updateDirectory, getLittle_setLittle, kept, Nat.mul_comm _ (2 ^ 12),
    ← Nat.two_pow_add_eq_or_of_lt top, word]
  omega

end fields

section update
variable {fsbi : SbInfo} (layout : Layout fsbi) {w w' : World} {inode : IndexNode}
  (valid : Valid fsbi inode.dentryLocation)
  (room : 32 * inode.dentryPosition + 32 ≤ fsbi.bytesPerCluster)
  (disk : w'.disk = putEntry fsbi inode w.disk)
include layout valid disk

theorem putEntry_byte {i : Nat} (inside : i < fsbi.bytesPerCluster) :
    w'.disk (512 * clusterSector fsbi inode.dentryLocation + i) =
      updateDirectory (clusterBuffer fsbi (w.sectors (clusterSector fsbi inode.dentryLocation)))
        (32 * inode.dentryPosition) inode i := by
  have bytes := layout.bytes
  have located : ¬ inode.dentryLocation = 0 := by
    have data := valid.data
    omega
  rw [disk, putEntry, if_neg located, copy_inside _ _ _ _ _ _ (by omega), Nat.zero_add]
  rfl

include room

theorem putEntry_only : EntryOnly fsbi w w' inode.dentryLocation inode.dentryPosition := by
  intro x outside
  by_cases inside : 512 * clusterSector fsbi inode.dentryLocation ≤ x ∧
      x < 512 * clusterSector fsbi inode.dentryLocation + fsbi.bytesPerCluster
  · obtain ⟨i, rfl⟩ : ∃ i, x = 512 * clusterSector fsbi inode.dentryLocation + i :=
      ⟨x - 512 * clusterSector fsbi inode.dentryLocation, by omega⟩
    rw [putEntry_byte layout valid disk (by omega), updateDirectory_frame _ _ _ (by omega),
      clusterBuffer_byte layout w _ (by omega)]
  · have entry : entryByte fsbi inode = 512 * clusterSector fsbi inode.dentryLocation +
      32 * inode.dentryPosition := rfl
    rw [disk]
    exact putEntry_outside layout inode w.disk (by omega)

theorem putEntry_field {k n : Nat} (inside : k + n ≤ 32) :
    getLittle w'.disk (512 * clusterSector fsbi inode.dentryLocation +
        (32 * inode.dentryPosition + k)) n =
      getLittle (updateDirectory (clusterBuffer fsbi
        (w.sectors (clusterSector fsbi inode.dentryLocation))) (32 * inode.dentryPosition) inode)
        (32 * inode.dentryPosition + k) n := by
  apply getLittle_congr
  intro i within
  rw [Nat.add_assoc]
  exact putEntry_byte layout valid disk (by omega)

/-- The entry as the next lookup reads it: the new cluster and size, the attributes as before. -/
theorem putEntry_recorded (size : inode.fileSize < 2 ^ 32) (small : inode.firstCluster < 2 ^ 28) :
    recorded fsbi w' inode.dentryLocation inode.dentryPosition = ⟨inode,
      (recorded fsbi w inode.dentryLocation inode.dentryPosition).attributes⟩ := by
  have data := valid.data
  have less := valid_small valid
  have whole : ∀ k : Nat, (32 * (inode.dentryPosition : Int) + k) =
      ((32 * inode.dentryPosition + k : Nat) : Int) := by omega
  have word : ∀ (u : World) (k : Nat), k + 1 < 32 →
      wordAt (viewOf fsbi u zeros zeros inode.dentryLocation) (32 * inode.dentryPosition + k) =
        getLittle u.disk (512 * clusterSector fsbi inode.dentryLocation +
          (32 * inode.dentryPosition + k)) 2 :=
    fun u k below => wordAt_disk layout u zeros zeros (whole k) data less (by omega)
  have old : getLittle (clusterBuffer fsbi (w.sectors (clusterSector fsbi inode.dentryLocation)))
      (32 * inode.dentryPosition + 20) 2 = getLittle w.disk
        (512 * clusterSector fsbi inode.dentryLocation + (32 * inode.dentryPosition + 20)) 2 := by
    apply getLittle_congr
    intro i within
    rw [clusterBuffer_byte layout w _ (by omega), ← Nat.add_assoc]
  have nibble : dirFstClusHI (viewOf fsbi w zeros zeros inode.dentryLocation)
      (32 * inode.dentryPosition) = getLittle w.disk (512 * clusterSector fsbi inode.dentryLocation +
        (32 * inode.dentryPosition + 20)) 2 := word w 20 (by omega)
  have high : dirFstClusHI (viewOf fsbi w' zeros zeros inode.dentryLocation)
      (32 * inode.dentryPosition) = _ := word w' 20 (by omega)
  rw [putEntry_field layout valid room disk (by omega), updateDirectory_high _ _ _ small, old,
    ← nibble] at high
  have low : dirFstClusLO (viewOf fsbi w' zeros zeros inode.dentryLocation)
      (32 * inode.dentryPosition) = _ := word w' 26 (by omega)
  rw [putEntry_field layout valid room disk (by omega), updateDirectory_low] at low
  have length := recorded_size layout w' data less room
  rw [putEntry_field layout valid room disk (by omega), updateDirectory_fileSize,
    Nat.mod_eq_of_lt size] at length
  have byte : viewOf fsbi w' zeros zeros inode.dentryLocation (32 * inode.dentryPosition + 11) =
      viewOf fsbi w zeros zeros inode.dentryLocation (32 * inode.dentryPosition + 11) := by
    have at_ : (32 * (inode.dentryPosition : Int) + 11) =
        ((32 * inode.dentryPosition + 11 : Nat) : Int) := by omega
    rw [at_, viewOf_byte layout w' zeros zeros data less (by omega),
      viewOf_byte layout w zeros zeros data less (by omega)]
    exact putEntry_only layout valid room disk _ (by omega)
  have directory : isDirectory (viewOf fsbi w' zeros zeros inode.dentryLocation)
      (32 * inode.dentryPosition) = isDirectory (viewOf fsbi w zeros zeros inode.dentryLocation)
        (32 * inode.dentryPosition) := by
    rw [isDirectory, isDirectory, dirAttr, dirAttr, byteAt, byteAt, byte]
  have top : dirFstClusHI (viewOf fsbi w' zeros zeros inode.dentryLocation)
      (32 * inode.dentryPosition) / 2 ^ 12 = dirFstClusHI (viewOf fsbi w zeros zeros
        inode.dentryLocation) (32 * inode.dentryPosition) / 2 ^ 12 := by
    omega
  have cluster : (dirFstClusHI (viewOf fsbi w' zeros zeros inode.dentryLocation)
      (32 * inode.dentryPosition) * 2 ^ 16 + dirFstClusLO (viewOf fsbi w' zeros zeros
        inode.dentryLocation) (32 * inode.dentryPosition)) % 2 ^ 28 = inode.firstCluster := by
    omega
  have place : (32 * (inode.dentryPosition : Int) / 32).toNat = inode.dentryPosition := by omega
  simp only [recorded, foundAt] at length ⊢
  rw [length, cluster, place, directory, top]

end update

theorem quiet_zeros : Quiet zeros := by
  unfold Quiet
  decide

theorem quiet_view (fsbi : SbInfo) (w : World) {before : Memory} (block : Memory) (cluster : Nat)
    (quiet : Quiet before) : lookupSlot (viewOf fsbi w before block cluster) (-32) = false := quiet

theorem dirAttr_heap {fsbi : SbInfo} (layout : Layout fsbi) (w : World) (before block : Memory)
    {location idx : Nat} (valid : Valid fsbi location)
    (room : 32 * idx + 32 ≤ fsbi.bytesPerCluster) :
    dirAttr (viewOf fsbi w before block location) (32 * idx) =
      dirAttr (viewOf fsbi w zeros zeros location) (32 * idx) := by
  have byte_at : (32 * (idx : Int) + 11) = ((32 * idx + 11 : Nat) : Int) := by omega
  rw [dirAttr, dirAttr, byteAt, byteAt, byte_at,
    viewOf_byte layout w before block valid.data (valid_small valid) (by omega),
    viewOf_byte layout w zeros zeros valid.data (valid_small valid) (by omega)]

section search
variable {fsbi : SbInfo} (layout : Layout fsbi) {w w' : World} {location idx : Nat}
  (only : EntryOnly fsbi w w' location idx) (valid : Valid fsbi location)
  (room : 32 * idx + 32 ≤ fsbi.bytesPerCluster)
include layout only valid

theorem EntryOnly.tables : SameTables fsbi w w' := by
  intro x table
  have clear := @table_clear fsbi layout location (32 * idx) 32 x valid table
  exact only x (by omega)

include room

theorem EntryOnly.byte {c a : Nat} (here : Valid fsbi c) (inside : a < fsbi.bytesPerCluster)
    (place : c ≠ location ∨ a < 32 * idx + 20 ∨ 32 * idx + 32 ≤ a) :
    w'.disk (512 * clusterSector fsbi c + a) = w.disk (512 * clusterSector fsbi c + a) := by
  apply only
  by_cases same : c = location
  · rw [same] at place ⊢
    omega
  · have clear := @cluster_clear fsbi layout c location a (32 * idx) 32 here valid same inside room
    omega

theorem EntryOnly.names
    (entry : dirAttr (viewOf fsbi w zeros zeros location) (32 * idx) ≠ attrLongName)
    {before before' : Memory} (quiet : Quiet before) (quiet' : Quiet before') (block block' : Memory)
    {c : Nat} (here : Valid fsbi c) :
    SameNames (viewOf fsbi w before block c) (viewOf fsbi w' before' block' c) (Within fsbi) := by
  have bytes := layout.bytes
  have data := here.data
  have small := valid_small here
  have same : ∀ a : Nat, a < fsbi.bytesPerCluster →
      (c ≠ location ∨ a < 32 * idx + 20 ∨ 32 * idx + 32 ≤ a) →
        viewOf fsbi w before block c a = viewOf fsbi w' before' block' c a := by
    intro a inside place
    rw [viewOf_byte layout w before block data small inside,
      viewOf_byte layout w' before' block' data small inside,
      only.byte layout valid room here inside place]
  refine ⟨fun p within k low high => ?_, fun p within slot k low high => ?_, fun p within => ?_⟩
  · obtain ⟨on_entry, start, inside⟩ := within
    obtain ⟨a, at_⟩ : ∃ a : Nat, p + k = a := ⟨(p + k).toNat, by omega⟩
    rw [at_]
    exact same a (by omega) (by omega)
  · obtain ⟨on_entry, start, inside⟩ := within
    obtain ⟨a, at_⟩ : ∃ a : Nat, p + k = a := ⟨(p + k).toNat, by omega⟩
    rw [at_]
    apply same a (by omega)
    by_cases elsewhere : c = location
    · right
      have differ : p ≠ 32 * idx := by
        intro entry_at
        simp only [lookupSlot, decide_eq_true_eq] at slot
        have attr := slot.1
        rw [elsewhere, entry_at] at attr
        exact entry ((dirAttr_heap layout w before block valid room).symm.trans attr)
      omega
    · exact Or.inl elsewhere
  · obtain ⟨on_entry, start, inside⟩ := within
    by_cases first : p = 0
    · right
      rw [first, Int.zero_sub]
      exact ⟨quiet_view fsbi w block c quiet, quiet_view fsbi w' block' c quiet'⟩
    · exact Or.inl ⟨by omega, by omega, by omega⟩

end search

theorem entriesOf_within {fsbi : SbInfo} (layout : Layout fsbi) {cluster : Nat} {e : Nat × Int}
    (member : e ∈ entriesOf cluster (entriesFrom fsbi 0) 0) : Within fsbi e.2 := by
  have bytes := layout.bytes
  have inside : ∀ {n k : Nat}, e ∈ entriesOf cluster n (32 * k) →
      ∃ m : Nat, e.2 = 32 * m ∧ m < k + n := by
    intro n
    induction n with
    | zero =>
      intro k none_
      cases none_
    | succ n ih =>
      intro k listed
      rcases List.mem_cons.mp listed with here | later
      · exact ⟨k, by rw [here], by omega⟩
      · have next : (32 * k + 32 : Int) = 32 * ((k + 1 : Nat) : Int) := by omega
        rw [next] at later
        obtain ⟨m, at_, less⟩ := ih later
        exact ⟨m, at_, by omega⟩
  obtain ⟨m, at_, less⟩ := @inside _ 0 member
  unfold entriesFrom at less
  exact ⟨by omega, by omega, by omega⟩

theorem directoryClusters_chain {fsbi : SbInfo} {w : World} {first len : Nat}
    (chain : Chain fsbi w first len) {fuel k : Nat} (less : k < len) :
    ∀ c ∈ directoryClusters fsbi w fuel (clusterAt fsbi w first k), Valid fsbi c := by
  induction fuel generalizing k with
  | zero =>
    intro c none_
    cases none_
  | succ fuel ih =>
    intro c member
    rcases List.mem_cons.mp member with here | later
    · rw [here]
      exact chain.valid k less
    · split at later
      · rename_i more
        rw [← clusterAt_succ] at more later
        have next : k + 1 < len := by
          have mark := chain.ends
          by_contra past
          have last : k + 1 = len := by omega
          rw [last] at more
          omega
        exact ih next c later
      · cases later

/-- The entry at place idx of a cluster is the first one in use that looks like the name. -/
def Foremost (fsbi : SbInfo) (w : World) (fuel first : Nat) (d : Component)
    (location idx : Nat) : Prop :=
  Alike (viewOf fsbi w zeros zeros location) (32 * idx : Nat) d ∧
    Unmistaken (viewOf fsbi w zeros zeros) d (directoryEntries fsbi w fuel first) location (32 * idx)

/-- Lookups of a name, whatever the heap, give a file with these attributes. -/
def Rereads (fsbi : SbInfo) (w : World) (fuel first : Nat) (d : Component) (file : Found) : Prop :=
  ∀ opener : World, opener.disk = w.disk → Quiet (heapBefore opener) →
    ∃ last, run (FAT32Lookup fuel fsbi first d) opener = some (some file, last)

section round
variable {fsbi : SbInfo} (layout : Layout fsbi) {w : World} {first len fuel : Nat}
  (chain : Chain fsbi w first len) (some_clusters : 0 < len)
include layout chain some_clusters

theorem entry_listed {e : Nat × Int} (member : e ∈ directoryEntries fsbi w fuel first) :
    Valid fsbi e.1 ∧ Within fsbi e.2 := by
  obtain ⟨c, on_chain, on_entry⟩ := List.mem_flatMap.mp member
  have small := valid_small (chain.valid 0 some_clusters)
  have word : first % 2 ^ 32 = first := Nat.mod_eq_of_lt (by unfold clusterAt at small; omega)
  rw [word] at on_chain
  rw [entriesOf_cluster on_entry]
  exact ⟨directoryClusters_chain chain some_clusters c on_chain, entriesOf_within layout on_entry⟩

theorem find_after {w' : World} {location idx : Nat} (only : EntryOnly fsbi w w' location idx)
    (valid : Valid fsbi location) (room : 32 * idx + 32 ≤ fsbi.bytesPerCluster)
    (entry : dirAttr (viewOf fsbi w zeros zeros location) (32 * idx) ≠ attrLongName)
    {opener : World} (same : opener.disk = w'.disk) (quiet : Quiet (heapBefore opener))
    (d : Component) :
    (directoryEntries fsbi opener fuel first).find?
        (Taken fsbi opener (heapBefore opener) (heapBlock opener) d) =
      (directoryEntries fsbi w fuel first).find? (Taken fsbi w zeros zeros d) := by
  have moved : EntryOnly fsbi w opener location idx := fun x outside => by
    rw [same]
    exact only x outside
  have small := valid_small (chain.valid 0 some_clusters)
  have word : first % 2 ^ 32 = first := Nat.mod_eq_of_lt (by unfold clusterAt at small; omega)
  have clusters := @directoryClusters_frame fsbi layout w opener
    (moved.tables layout valid) fuel first (directoryClusters_chain chain some_clusters)
  have entries : directoryEntries fsbi opener fuel first = directoryEntries fsbi w fuel first := by
    rw [directoryEntries, word, clusters, directoryEntries, word]
  rw [entries]
  apply List.find?_congr
  intro e member
  obtain ⟨here, within⟩ := entry_listed layout chain some_clusters member
  have names := moved.names layout valid room entry quiet_zeros quiet zeros
    (heapBlock opener) here
  rw [Taken, Taken, names.live within, names.compareName within]

theorem found_entry {d : Component} {found : Found} {looked : World}
    (ran : run (FAT32Lookup fuel fsbi first d) w = some (some found, looked)) :
    ∃ location idx : Nat, Valid fsbi location ∧ 32 * idx + 32 ≤ fsbi.bytesPerCluster ∧
      dirAttr (viewOf fsbi w zeros zeros location) (32 * idx) ≠ attrLongName ∧
      found = recorded fsbi w location idx ∧
      (directoryEntries fsbi w fuel first).find? (Taken fsbi w (heapBefore w) (heapBlock w) d) =
        some (location, (32 * idx : Int)) := by
  obtain ⟨e, at_, made⟩ := (lookup_run fsbi w d fuel first found).mp ⟨looked, ran⟩
  have member := List.mem_of_find?_eq_some at_
  obtain ⟨valid, within⟩ := entry_listed layout chain some_clusters member
  obtain ⟨m, offset⟩ := directoryEntries_aligned member
  have bytes := layout.bytes
  have room : 32 * m + 32 ≤ fsbi.bytesPerCluster := by
    have inside := within.2.2
    omega
  have on_disk := @foundAt_recorded fsbi layout w (heapBefore w) (heapBlock w) e.1 m room
  rw [← offset, ← made] at on_disk
  have entry : dirAttr (viewOf fsbi w zeros zeros e.1) (32 * m) ≠ attrLongName := by
    have in_use := List.find?_some at_
    simp only [Taken, live, Bool.and_eq_true, decide_eq_true_eq] at in_use
    have attr := in_use.1.1
    rw [offset, dirAttr_heap layout w _ _ valid room] at attr
    exact attr
  refine ⟨e.1, m, valid, room, entry, on_disk, ?_⟩
  rw [at_, ← offset]

/- In a heap that shows no slot, the entry found is the foremost one. -/
theorem found_foremost {d : Component} {found : Found} {looked : World}
    (ran : run (FAT32Lookup fuel fsbi first d) w = some (some found, looked))
    (quiet : Quiet (heapBefore w)) :
    Foremost fsbi w fuel first d found.inode.dentryLocation found.inode.dentryPosition := by
  obtain ⟨location, idx, valid, room, entry, on_disk, at_⟩ :=
    found_entry layout chain some_clusters ran
  have search := @find_after fsbi layout w first len fuel chain some_clusters w location idx
    (fun _ _ => rfl) valid room entry w rfl quiet d
  have place : (32 * (idx : Int)) = ((32 * idx : Nat) : Int) := by omega
  rw [at_, place] at search
  have foremost := (find_first_iff fsbi w zeros zeros d _ location (32 * idx)).mp search.symm
  have index : (32 * (idx : Int) / 32).toNat = idx := by omega
  simp only [on_disk, recorded, foundAt, index]
  exact foremost

/-- A lookup that found an entry, and fat32_write_inode with a new size and first cluster: only
    those fields of the entry change, and the next lookup gives them back, with the attributes as
    before, exactly if the entry is the first one that looks like the name to it as well. What
    lies behind the 0 of the name need not be what it was. -/
theorem entry_round_trip_iff {d : Component} {found : Found} {looked : World}
    (ran : run (FAT32Lookup fuel fsbi first d) w = some (some found, looked)) {size cluster : Nat}
    (size_word : size < 2 ^ 32) (small : cluster < 2 ^ 28) {writer : World}
    (same : writer.disk = w.disk) (again : Component) :
    ∃ w', run (fat32WriteInode fsbi { found.inode with fileSize := size, firstCluster := cluster })
        writer = some ((), w') ∧
      EntryOnly fsbi w w' found.inode.dentryLocation found.inode.dentryPosition ∧
      (Rereads fsbi w' fuel first again
          ⟨{ found.inode with fileSize := size, firstCluster := cluster }, found.attributes⟩ ↔
        Foremost fsbi w fuel first again found.inode.dentryLocation found.inode.dentryPosition) := by
  obtain ⟨e, m, valid, room, entry, on_disk, at_⟩ := found_entry layout chain some_clusters ran
  have location : found.inode.dentryLocation = e := by rw [on_disk]; rfl
  have position : found.inode.dentryPosition = m := by
    rw [on_disk]
    change (32 * (m : Int) / 32).toNat = m
    omega
  obtain ⟨w', wrote, disk, _⟩ := run_fat32WriteInode fsbi
    { found.inode with fileSize := size, firstCluster := cluster } writer
  rw [same] at disk
  have only := @putEntry_only fsbi layout w w' { found.inode with
    fileSize := size, firstCluster := cluster } (location ▸ valid) (position ▸ room) disk
  have reread := @putEntry_recorded fsbi layout w w' { found.inode with
    fileSize := size, firstCluster := cluster } (location ▸ valid) (position ▸ room) disk size_word
    small
  dsimp only at only reread
  refine ⟨w', wrote, only, ?_⟩
  rw [location, position] at only reread ⊢
  rw [← on_disk] at reread
  have search := @find_after fsbi layout w first len fuel chain some_clusters w' e m only valid
    room entry
  have first_one := find_first_iff fsbi w zeros zeros again (directoryEntries fsbi w fuel first)
    e (32 * m)
  have place : ((32 * m : Nat) : Int) = 32 * m := by omega
  rw [place] at first_one
  constructor
  · intro rereads
    obtain ⟨last, answer⟩ := rereads { w' with fresh := [] } rfl quiet_zeros
    obtain ⟨e', at', made'⟩ := (lookup_run fsbi _ again fuel first _).mp ⟨last, answer⟩
    have there : e' = (e, 32 * (m : Int)) := by
      obtain ⟨m', offset'⟩ := directoryEntries_aligned (List.mem_of_find?_eq_some at')
      have inode := congrArg Found.inode made'
      have cluster_at : found.inode.dentryLocation = e'.1 := congrArg IndexNode.dentryLocation inode
      have index_at : found.inode.dentryPosition = (e'.2 / 32).toNat :=
        congrArg IndexNode.dentryPosition inode
      apply Prod.ext
      · exact cluster_at.symm.trans location
      · change e'.2 = 32 * m
        omega
    rw [@search { w' with fresh := [] } rfl quiet_zeros again, there] at at'
    exact first_one.mp at'
  · intro foremost opener again_disk quiet
    have at' := first_one.mpr foremost
    rw [← search again_disk quiet] at at'
    obtain ⟨last, answer⟩ := (lookup_run fsbi opener again fuel first _).mpr ⟨_, at', rfl⟩
    refine ⟨last, ?_⟩
    rw [answer, foundAt_recorded layout opener _ _ room, recorded_disk again_disk, reread]
    simp only [location, position]

end round

def fullNameEntry : List UInt8 :=
  [0x41, 0x42, 0x43, 0x44, 0x45, 0x46, 0x47, 0x48, 0x54, 0x58, 0x54, 0x20]

/- The name ABCDEFGH in a block that held one with the extension TXT, and in a clean one. -/
def staleName : Component where
  name := fun i => [0x41, 0x42, 0x43, 0x44, 0x45, 0x46, 0x47, 0x48, 0, 0x54, 0x58, 0x54].getD i 0
  nameLength := 8
  nonempty := by decide
  inside := by decide
  terminated := rfl

def cleanName : Component :=
  componentOf [0x41, 0x42, 0x43, 0x44, 0x45, 0x46, 0x47, 0x48] (by decide) (by decide +kernel)

theorem fullName_chain : Chain oneSectorVolume (directoryDisk fullNameEntry) 2 1 := by
  refine ⟨fun i less => ?_, by decide +kernel⟩
  rw [Nat.lt_one_iff.mp less]
  exact ⟨by decide, (by decide : 2 < 128), by decide⟩

theorem entry_round_trip_stale :
    ∃ w', run (fat32WriteInode oneSectorVolume ⟨5, 3, 2, 0⟩) (directoryDisk fullNameEntry) =
        some ((), w') ∧ EntryOnly oneSectorVolume (directoryDisk fullNameEntry) w' 2 0 ∧
      (Rereads oneSectorVolume w' 1 2 staleName ⟨⟨5, 3, 2, 0⟩, attrFile⟩ ↔
        Foremost oneSectorVolume (directoryDisk fullNameEntry) 1 2 staleName 2 0) :=
  @entry_round_trip_iff oneSectorVolume oneSector_layout (directoryDisk fullNameEntry) 2 1 1
    fullName_chain (by decide) staleName ⟨⟨0, 0, 2, 0⟩, attrFile⟩ _ rfl 5 3 (by decide) (by decide)
    (directoryDisk fullNameEntry) rfl staleName

/- The entry is found by what lies behind the 0 of the name, and by the same name no more. -/
theorem entry_lost :
    ¬ ∀ (fsbi : SbInfo) (w : World) (first len fuel : Nat), Layout fsbi → Chain fsbi w first len →
      0 < len → ∀ (d : Component) (found : Found) (looked : World),
      run (FAT32Lookup fuel fsbi first d) w = some (some found, looked) →
      ∀ (size cluster : Nat), size < 2 ^ 32 → cluster < 2 ^ 28 → ∀ again : Component,
      again.text = d.text → ∀ w',
      run (fat32WriteInode fsbi { found.inode with fileSize := size, firstCluster := cluster })
        looked = some ((), w') →
      Rereads fsbi w' fuel first again
        ⟨{ found.inode with fileSize := size, firstCluster := cluster }, found.attributes⟩ := by
  intro claim
  have rereads := claim oneSectorVolume (directoryDisk fullNameEntry) 2 1 1 oneSector_layout
    fullName_chain (by decide) staleName ⟨⟨0, 0, 2, 0⟩, attrFile⟩ (directoryDisk fullNameEntry) rfl
    5 3 (by decide) (by decide) cleanName (by decide) _ rfl
  obtain ⟨last, answer⟩ := rereads _ rfl quiet_zeros
  have lost : (run (FAT32Lookup 1 oneSectorVolume 2 cleanName) ((run (fat32WriteInode
      oneSectorVolume ⟨5, 3, 2, 0⟩) (directoryDisk fullNameEntry)).elim
        (directoryDisk fullNameEntry) Prod.snd)).map (fun r => r.1.isSome) = some false := by
    decide +kernel
  have both := congrArg (Option.map fun r => r.1.isSome) answer
  exact Bool.noConfusion (Option.some.inj (both.symm.trans lost))

end EntryRoundTrip

import Q2os.FileEntry
import Q2os.OpenFiles
import Q2os.SameNames
import Mathlib.Data.List.Find

/- What a new size in the entry of a file leaves alone: every lookup on the way to it. -/
namespace NameMatching
open ByteMemory BlockProgram Fat32 OpenFiles

/-- Two views that agree but for the size in the entry at P, which is no long slot. -/
structure SizeApart (v v' : View) (P : Int) : Prop where
  same : ∀ i, i < P + 28 ∨ P + 32 ≤ i → v i = v' i
  entry : dirAttr v P ≠ attrLongName
  aligned : (32 : Int) ∣ P

section apart
variable {v v' : View} {P p : Int} (apart : SizeApart v v' P) (aligned : (32 : Int) ∣ p)
include apart aligned

theorem SizeApart.byte {k : Int} (low : 0 ≤ k) (high : k < 28) :
    byteAt v (p + k) = byteAt v' (p + k) := by
  have entry := apart.aligned
  rw [byteAt, byteAt, apart.same (p + k) (by omega)]

theorem SizeApart.firstCluster (cluster cluster' : Nat) :
    (foundAt v cluster p).inode.firstCluster = (foundAt v' cluster' p).inode.firstCluster := by
  have word : ∀ k : Int, 0 ≤ k → k + 1 < 28 → wordAt v (p + k) = wordAt v' (p + k) := by
    intro k low high
    rw [wordAt, wordAt, Int.add_assoc, apart.byte aligned low (by omega),
      apart.byte aligned (by omega) high]
  have high : dirFstClusHI v p = dirFstClusHI v' p := word 20 (by omega) (by omega)
  have low : dirFstClusLO v p = dirFstClusLO v' p := word 26 (by omega) (by omega)
  simp only [foundAt, high, low]

end apart

theorem SizeApart.names {v v' : View} {P : Int} (apart : SizeApart v v' P) :
    SameNames v v' fun p => (32 : Int) ∣ p := by
  have entry := apart.aligned
  refine ⟨fun p aligned k low high => apart.same _ (by omega), fun p aligned slot k low high => ?_,
    fun p aligned => Or.inl (by omega)⟩
  have elsewhere : p ≠ P := by
    intro same
    simp only [lookupSlot, decide_eq_true_eq] at slot
    rw [same] at slot
    exact apart.entry slot.1
  exact apart.same _ (by omega)

/-- All that differs is in the file's own clusters and the size in its entry. -/
structure FileOnly (fsbi : SbInfo) (w w' : World) (own : Nat → Prop) (location idx : Nat) :
    Prop where
  tables : SameTables fsbi w w'
  clusters : ∀ c a, Valid fsbi c → ¬ own c → a < fsbi.bytesPerCluster →
    (c ≠ location ∨ a < 32 * idx + 28 ∨ 32 * idx + 32 ≤ a) →
      w'.disk (512 * clusterSector fsbi c + a) = w.disk (512 * clusterSector fsbi c + a)

theorem FileOnly.trans {fsbi : SbInfo} {w₁ w₂ w₃ : World} {own : Nat → Prop}
    {location idx : Nat} (first : FileOnly fsbi w₁ w₂ own location idx)
    (second : FileOnly fsbi w₂ w₃ own location idx) : FileOnly fsbi w₁ w₃ own location idx :=
  ⟨fun x table => (second.tables x table).trans (first.tables x table),
    fun c a valid other inside place => (second.clusters c a valid other inside place).trans
      (first.clusters c a valid other inside place)⟩

theorem FileOnly.of_disk {w w' : World} (fsbi : SbInfo) (own : Nat → Prop) (location idx : Nat)
    (same : w'.disk = w.disk) : FileOnly fsbi w w' own location idx :=
  ⟨fun x _ => by rw [same], fun c a _ _ _ _ => by rw [same]⟩

theorem viewOf_outside (fsbi : SbInfo) (w w' : World) (before block : Memory) (cluster : Nat)
    {i : Int} (outside : i < 0 ∨ 512 * fsbi.sectorPerCluster ≤ i) :
    viewOf fsbi w before block cluster i = viewOf fsbi w' before block cluster i := by
  unfold viewOf around
  by_cases start : 0 ≤ i
  · rw [if_pos start, if_pos start, copy_outside _ _ _ _ _ _ (by omega),
      copy_outside _ _ _ _ _ _ (by omega)]
  · rw [if_neg start, if_neg start]

theorem entriesOf_cluster {cluster n : Nat} {i : Int} {e : Nat × Int}
    (member : e ∈ entriesOf cluster n i) : e.1 = cluster := by
  induction n generalizing i with
  | zero => cases member
  | succ n ih =>
    rcases List.mem_cons.mp member with here | later
    · rw [here]
    · exact ih later

theorem directoryClusters_frame {fsbi : SbInfo} (layout : Layout fsbi) {w w' : World}
    (tables : SameTables fsbi w w') {fuel first : Nat}
    (valid : ∀ c ∈ directoryClusters fsbi w fuel first, Valid fsbi c) :
    directoryClusters fsbi w' fuel first = directoryClusters fsbi w fuel first := by
  induction fuel generalizing first with
  | zero => rfl
  | succ fuel ih =>
    have here := valid first (List.mem_cons_self ..)
    have entry := fatEntry_frame layout tables here.in_table
    simp only [directoryClusters, entry]
    split
    · rename_i more
      rw [ih fun c member => valid c ?_]
      simp only [directoryClusters, if_pos more]
      exact List.mem_cons_of_mem _ member
    · rfl

section frame
variable {fsbi : SbInfo} (layout : Layout fsbi) {w w' : World} {own : Nat → Prop}
  {location idx : Nat} (only : FileOnly fsbi w w' own location idx)
include layout only

theorem FileOnly.view (before block : Memory) {c : Nat} (valid : Valid fsbi c) (other : ¬ own c)
    {i : Int} (place : c ≠ location ∨ i < 32 * idx + 28 ∨ 32 * idx + 32 ≤ i) :
    viewOf fsbi w before block c i = viewOf fsbi w' before block c i := by
  have bytes := layout.bytes
  have data := valid.data
  have small := valid_small valid
  by_cases inside : 0 ≤ i ∧ i < 512 * fsbi.sectorPerCluster
  · obtain ⟨a, rfl⟩ : ∃ a : Nat, i = a := ⟨i.toNat, by omega⟩
    rw [viewOf_byte layout w before block data small (by omega),
      viewOf_byte layout w' before block data small (by omega),
      only.clusters c a valid other (by omega) (by omega)]
  · exact viewOf_outside fsbi w w' before block c (by omega)

/- In a cluster of a directory views differ in the size of the entry at most. -/
theorem FileOnly.apart (before block : Memory) {c : Nat} (valid : Valid fsbi c) (other : ¬ own c)
    (entry : dirAttr (viewOf fsbi w before block location) (32 * idx) ≠ attrLongName) :
    viewOf fsbi w before block c = viewOf fsbi w' before block c ∨
      SizeApart (viewOf fsbi w before block c) (viewOf fsbi w' before block c) (32 * idx) := by
  by_cases here : c = location
  · right
    rw [← here] at entry
    exact ⟨fun i place => only.view layout before block valid other (by omega), entry, by omega⟩
  · left
    funext i
    exact only.view layout before block valid other (Or.inl here)

theorem FileOnly.taken (before block : Memory) (d : Component) {e : Nat × Int}
    (valid : Valid fsbi e.1) (other : ¬ own e.1) (aligned : (32 : Int) ∣ e.2)
    (entry : dirAttr (viewOf fsbi w before block location) (32 * idx) ≠ attrLongName) :
    Taken fsbi w before block d e = Taken fsbi w' before block d e := by
  unfold Taken
  rcases only.apart layout before block valid other entry with same | apart
  · rw [same]
  · rw [apart.names.live aligned, apart.names.compareName aligned d]

/- A directory that takes no cluster of the file answers lookups as before. -/
theorem FileOnly.find (before block : Memory) (d : Component) {fuel first : Nat}
    (valid : ∀ c ∈ directoryClusters fsbi w fuel (first % 2 ^ 32),
      Valid fsbi c ∧ ¬ own c)
    (entry : dirAttr (viewOf fsbi w before block location) (32 * idx) ≠ attrLongName) :
    (directoryEntries fsbi w' fuel first).find? (Taken fsbi w' before block d) =
      (directoryEntries fsbi w fuel first).find? (Taken fsbi w before block d) := by
  have clusters := directoryClusters_frame layout only.tables fun c member => (valid c member).1
  unfold directoryEntries
  rw [clusters]
  apply List.find?_congr
  intro e member
  obtain ⟨c, on_chain, on_entry⟩ := List.mem_flatMap.mp member
  obtain ⟨m, at_⟩ := entriesOf_aligned (k := 0) on_entry
  have same_cluster := entriesOf_cluster on_entry
  obtain ⟨here, other⟩ := valid c on_chain
  rw [← same_cluster] at here other
  exact (only.taken layout before block d here other (by omega) entry).symm

end frame

theorem lookup_found (fsbi : SbInfo) (w : World) (d : Component) (fuel firstCluster : Nat)
    {e : Nat × Int} (found : (directoryEntries fsbi w fuel firstCluster).find?
      (Taken fsbi w (heapBefore w) (heapBlock w) d) = some e) :
    run (FAT32Lookup fuel fsbi firstCluster d) w =
      some (some (foundAt (viewOf fsbi w (heapBefore w) (heapBlock w) e.1) e.1 e.2),
        { w with fresh := w.fresh.tail.tail }) := by
  have clusters := @directoryClusters_disk fsbi { w with fresh := w.fresh.tail.tail } w rfl fuel
    (firstCluster % 2 ^ 32)
  refine (lookupFrom_run fsbi { w with fresh := w.fresh.tail.tail } _ (heapBefore w) (heapBlock w) d
    fuel (firstCluster % 2 ^ 32) _).mpr ⟨rfl, e, ?_, rfl⟩
  rw [clusters]
  exact found

/-- With the blocks the heap gives, the walk of a path from a directory on takes the entry at
    place idx of a cluster, through directories that have no cluster of the file. -/
def Leads (v : Volume) (own : Nat → Prop) (location idx : Nat) :
    World → Nat → List Component → Prop
  | _, _, [] => False
  | w, first, d :: path =>
    (∀ c ∈ directoryClusters v.fsbi w v.rounds (first % 2 ^ 32), Valid v.fsbi c ∧ ¬ own c) ∧
    ∃ e, (directoryEntries v.fsbi w v.rounds first).find?
        (Taken v.fsbi w (heapBefore w) (heapBlock w) d) = some e ∧
      ((path = [] ∧ e = (location, 32 * (idx : Int))) ∨
        Leads v own location idx { w with fresh := w.fresh.tail.tail }
          (foundAt (viewOf v.fsbi w (heapBefore w) (heapBlock w) e.1) e.1 e.2).inode.firstCluster
          path)

theorem pathWalk_run {v : Volume} (layout : Layout v.fsbi) {own : Nat → Prop}
    {location idx : Nat} (room : 32 * idx + 32 ≤ v.fsbi.bytesPerCluster) {w : World}
    {parent : Found} {path : List Component}
    (leads : Leads v own location idx w parent.inode.firstCluster path) :
    ∃ fresh, run (pathWalk v parent path) w =
      some (some (recorded v.fsbi w location idx), { w with fresh := fresh }) := by
  induction path generalizing w parent with
  | nil => cases leads
  | cons d path ih =>
    obtain ⟨_, e, found, rest⟩ := leads
    have looked := lookup_found v.fsbi w d v.rounds parent.inode.firstCluster found
    simp only [pathWalk, run_bind, looked, Option.bind_some]
    rcases rest with last | more
    · obtain ⟨rfl, rfl⟩ := last
      exact ⟨w.fresh.tail.tail, by rw [foundAt_recorded layout w _ _ room]; rfl⟩
    · exact ih more

theorem Leads.frame {v : Volume} (layout : Layout v.fsbi) {own : Nat → Prop} {location idx : Nat}
    {first : Nat} {w w' : World} (regular : Regular v.fsbi w location idx first)
    (only : FileOnly v.fsbi w w' own location idx) {parent : Nat} {path : List Component}
    (heap : w'.fresh = w.fresh) (leads : Leads v own location idx w parent path) :
    Leads v own location idx w' parent path := by
  induction path generalizing w w' parent with
  | nil => cases leads
  | cons d path ih =>
    obtain ⟨valid, e, found, rest⟩ := leads
    have entry : dirAttr (viewOf v.fsbi w (heapBefore w) (heapBlock w) location) (32 * idx) ≠
        attrLongName := by
      have room := regular.room
      have data := regular.cluster.data
      have small := valid_small regular.cluster
      have place : (32 * (idx : Int) + 11) = ((32 * idx + 11 : Nat) : Int) := by omega
      have plain := regular.short_entry
      rw [dirAttr, byteAt, place, viewOf_byte layout w _ _ data small (by omega)] at plain ⊢
      exact plain
    have before : heapBefore w' = heapBefore w := by rw [heapBefore, heapBefore, heap]
    have block : heapBlock w' = heapBlock w := by rw [heapBlock, heapBlock, heap]
    have clusters := directoryClusters_frame layout only.tables fun c member => (valid c member).1
    have same := only.find layout (heapBefore w) (heapBlock w) d valid entry
    obtain ⟨c, on_chain, on_entry⟩ := List.mem_flatMap.mp (List.mem_of_find?_eq_some found)
    obtain ⟨m, at_⟩ := entriesOf_aligned (k := 0) on_entry
    have in_cluster := entriesOf_cluster on_entry
    obtain ⟨here, other⟩ := valid c on_chain
    rw [← in_cluster] at here other
    refine ⟨by rw [clusters]; exact valid, e, ?_, ?_⟩
    · rw [before, block, same]
      exact found
    · rcases rest with last | more
      · exact Or.inl last
      · right
        have next : (foundAt (viewOf v.fsbi w' (heapBefore w') (heapBlock w') e.1) e.1
            e.2).inode.firstCluster = (foundAt (viewOf v.fsbi w (heapBefore w) (heapBlock w) e.1)
              e.1 e.2).inode.firstCluster := by
          rw [before, block]
          rcases only.apart layout (heapBefore w) (heapBlock w) here other entry with whole | apart
          · rw [whole]
          · exact (apart.firstCluster (by omega) e.1 e.1).symm
        rw [next]
        exact @ih { w with fresh := w.fresh.tail.tail } { w' with fresh := w'.fresh.tail.tail }
          ⟨regular.cluster, regular.room, regular.short_entry, regular.attributes, regular.started⟩
          ⟨only.tables, only.clusters⟩ _ (by rw [heap]) more

end NameMatching

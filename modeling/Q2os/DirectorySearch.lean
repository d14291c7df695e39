import Q2os.NameMatching
import Q2os.Volume

/- Runs of FAT32_lookup over the clusters of a directory: the entry it returns is the first
   one that looks like the name, and whether that one has the name. -/
namespace NameMatching
open ByteMemory BlockProgram Fat32

def directoryClusters (fsbi : SbInfo) (w : World) : Nat → Nat → List Nat
  | 0, _ => []
  | fuel + 1, cluster =>
    cluster ::
      if fatEntry fsbi w cluster < 0x0ffffff7 then
        directoryClusters fsbi w fuel (fatEntry fsbi w cluster)
      else []

def entriesOf (cluster : Nat) : Nat → Int → List (Nat × Int)
  | 0, _ => []
  | n + 1, i => (cluster, i) :: entriesOf cluster n (i + 32)

/-- The entries of a directory in order, as clusters and byte offsets. -/
def directoryEntries (fsbi : SbInfo) (w : World) (fuel firstCluster : Nat) : List (Nat × Int) :=
  (directoryClusters fsbi w fuel (firstCluster % 2 ^ 32)).flatMap fun cluster =>
    entriesOf cluster (entriesFrom fsbi 0) 0

def heapBefore (w : World) : Memory := w.fresh.headD fun _ => 0
def heapBlock (w : World) : Memory := w.fresh.tail.headD fun _ => 0

def viewOf (fsbi : SbInfo) (w : World) (before block : Memory) (cluster : Nat) : View :=
  around before (copy (w.sectors (directorySector fsbi cluster)) 0 block 0
    (512 * fsbi.sectorPerCluster))

def Taken (fsbi : SbInfo) (w : World) (before block : Memory) (d : Component)
    (e : Nat × Int) : Bool :=
  live (viewOf fsbi w before block e.1) e.2 && compareName (viewOf fsbi w before block e.1) e.2 d

theorem copy_over (first second block : Memory) (n : Nat) :
    copy second 0 (copy first 0 block 0 n) 0 n = copy second 0 block 0 n := by
  funext i
  simp only [copy]
  split
  · rfl
  · rfl

theorem find_cluster (fsbi : SbInfo) (w : World) (before block : Memory) (d : Component)
    (cluster n : Nat) (i : Int) :
    (entriesOf cluster n i).find? (Taken fsbi w before block d) =
      (firstNamed (viewOf fsbi w before block cluster) d n i).map fun p => (cluster, p) := by
  induction n generalizing i with
  | zero => rfl
  | succ n ih =>
    simp only [entriesOf, firstNamed, List.find?_cons]
    by_cases taken : live (viewOf fsbi w before block cluster) i = true ∧
        compareName (viewOf fsbi w before block cluster) i d = true
    · simp [Taken, taken]
    · have skips : Taken fsbi w before block d (cluster, i) = false := by
        simpa only [Taken, ← Bool.not_eq_true, Bool.and_eq_true] using taken
      rw [if_neg taken, ← ih (i + 32)]
      simp only [skips]

/-- The loop over the clusters returns the first entry it would take. -/
theorem lookupFrom_run (fsbi : SbInfo) (w w' : World) (before block : Memory) (d : Component)
    (fuel cluster : Nat) (found : Found) :
    run (lookupFrom fsbi before block d fuel cluster) w = some (some found, w') ↔
      w' = w ∧ ∃ e, ((directoryClusters fsbi w fuel cluster).flatMap fun c =>
        entriesOf c (entriesFrom fsbi 0) 0).find? (Taken fsbi w before block d) = some e ∧
        found = foundAt (viewOf fsbi w before block e.1) e.1 e.2 := by
  induction fuel generalizing cluster block with
  | zero => simp [lookupFrom, run, directoryClusters]
  | succ fuel ih =>
    have reread : Taken fsbi w before (copy (w.sectors (directorySector fsbi cluster)) 0 block
        0 (512 * fsbi.sectorPerCluster)) d = Taken fsbi w before block d := by
      funext e
      simp only [Taken, viewOf, copy_over]
    have rest := ih (copy (w.sectors (directorySector fsbi cluster)) 0 block 0
      (512 * fsbi.sectorPerCluster)) (fatEntry fsbi w cluster)
    simp only [reread, viewOf, copy_over] at rest
    have here := find_cluster fsbi w before block d cluster (entriesFrom fsbi 0) 0
    have clusters : directoryClusters fsbi w (fuel + 1) cluster = cluster ::
        if fatEntry fsbi w cluster < 0x0ffffff7 then
          directoryClusters fsbi w fuel (fatEntry fsbi w cluster)
        else [] := rfl
    rw [clusters, List.flatMap_cons, List.find?_append, here]
    simp only [lookupFrom, run_bind, readSectors, run, Option.bind_some, viewOf]
    cases named : firstNamed (around before (copy (w.sectors (directorySector fsbi cluster)) 0 block
        0 (512 * fsbi.sectorPerCluster))) d (entriesFrom fsbi 0) 0 with
    | some p =>
      simp only [pure, run, Option.map_some, Option.some_or, Option.some.injEq, Prod.mk.injEq]
      constructor
      · intro both
        exact ⟨both.2.symm, (cluster, p), rfl, both.1.symm⟩
      · intro both
        obtain ⟨same, e, at_, made⟩ := both
        rw [← at_] at made
        exact ⟨made.symm, same.symm⟩
    | none =>
      simp only [run_bind, run_readFATEntry, Option.bind_some, Option.map_none, Option.none_or]
      by_cases more : fatEntry fsbi w cluster < 0x0ffffff7
      · simp only [more, ↓reduceIte]
        exact rest
      · simp [more, pure, run]

theorem directoryClusters_disk (fsbi : SbInfo) {w w' : World} (same : w.disk = w'.disk)
    (fuel cluster : Nat) :
    directoryClusters fsbi w fuel cluster = directoryClusters fsbi w' fuel cluster := by
  induction fuel generalizing cluster with
  | zero => rfl
  | succ fuel ih =>
    have sectors : w.sectors = w'.sectors := by
      funext sector i
      simp only [World.sectors, same]
    have entry : fatEntry fsbi w cluster = fatEntry fsbi w' cluster := by
      simp only [fatEntry, sectors]
    simp only [directoryClusters, entry, ih]

/-- What a call of FAT32_lookup on a disk that answers finds. -/
theorem lookup_run (fsbi : SbInfo) (w : World) (d : Component) (fuel firstCluster : Nat)
    (found : Found) :
    (∃ w', run (FAT32Lookup fuel fsbi firstCluster d) w = some (some found, w')) ↔
      ∃ e, (directoryEntries fsbi w fuel firstCluster).find?
          (Taken fsbi w (heapBefore w) (heapBlock w) d) = some e ∧
        found = foundAt (viewOf fsbi w (heapBefore w) (heapBlock w) e.1) e.1 e.2 := by
  have loop := fun w' => lookupFrom_run fsbi { w with fresh := w.fresh.tail.tail } w'
    (heapBefore w) (heapBlock w) d fuel (firstCluster % 2 ^ 32) found
  have unfolded : run (FAT32Lookup fuel fsbi firstCluster d) w =
      run (lookupFrom fsbi (heapBefore w) (heapBlock w) d fuel (firstCluster % 2 ^ 32))
        { w with fresh := w.fresh.tail.tail } := rfl
  have clusters := @directoryClusters_disk fsbi { w with fresh := w.fresh.tail.tail } w rfl fuel
    (firstCluster % 2 ^ 32)
  simp only [clusters] at loop
  simp only [unfolded, loop]
  exact exists_eq_left

/- The first of a list with one property has another exactly if those without the other come
   after one with both. -/
theorem find_good_iff {α : Type} (p : α → Bool) (good : α → Prop) (xs : List α) :
    (∀ e, xs.find? p = some e → good e) ↔
      ∀ before e after, xs = before ++ e :: after → p e = true → ¬ good e →
        ∃ e' ∈ before, p e' = true ∧ good e' := by
  constructor
  · intro first before e after parts taken bad
    cases earlier : before.find? p with
    | some e' =>
      have found : xs.find? p = some e' := by simp [parts, List.find?_append, earlier]
      exact ⟨e', List.mem_of_find?_eq_some earlier, List.find?_some earlier, first e' found⟩
    | none =>
      have found : xs.find? p = some e := by simp [parts, List.find?_append, earlier, taken]
      exact absurd (first e found) bad
  · intro guarded e found
    obtain ⟨taken, before, after, parts, skipped⟩ := List.find?_eq_some_iff_append.mp found
    by_contra bad
    obtain ⟨e', member, also, _⟩ := guarded before e after parts taken bad
    have not_taken := skipped e' member
    simp [also] at not_taken

/-- The names FAT32_readdir has for the entry at p: the characters of its long slots, or the
    8.3 name. -/
def Carries (v : View) (p : Int) (name : List UInt8) : Prop :=
  (longSlot v (p - 32) = true ∧
    ∃ fuel n, countSlots v fuel (p - 32) = some n ∧ name = longName v n (p - 32)) ∨
  name = shortName v p

def Alike (v : View) (p : Int) (d : Component) : Prop := live v p = true ∧ Resembles v p d

/-- An entry that looks like the name without having it is met only after one that looks like
    it and has it. -/
def Guarded (v : Nat → View) (d : Component) (entries : List (Nat × Int)) : Prop :=
  ∀ before e after, entries = before ++ e :: after →
    Alike (v e.1) e.2 d → ¬ Carries (v e.1) e.2 d.text →
      ∃ e' ∈ before, Alike (v e'.1) e'.2 d ∧ Carries (v e'.1) e'.2 d.text

theorem taken_iff (fsbi : SbInfo) (w : World) (before block : Memory) (d : Component)
    (e : Nat × Int) : Taken fsbi w before block d e = true ↔
      Alike (viewOf fsbi w before block e.1) e.2 d := by
  simp only [Taken, Bool.and_eq_true, compareName_iff, Alike]

theorem entriesOf_aligned {cluster n k : Nat} {e : Nat × Int}
    (member : e ∈ entriesOf cluster n (32 * k)) : ∃ m : Nat, e.2 = 32 * m := by
  induction n generalizing k with
  | zero => cases member
  | succ n ih =>
    rcases List.mem_cons.mp member with here | later
    · exact ⟨k, by rw [here]⟩
    · have next : (32 * k + 32 : Int) = 32 * ((k + 1 : Nat) : Int) := by omega
      rw [next] at later
      exact ih later

theorem directoryEntries_aligned {fsbi : SbInfo} {w : World} {fuel firstCluster : Nat}
    {e : Nat × Int} (member : e ∈ directoryEntries fsbi w fuel firstCluster) :
    ∃ m : Nat, e.2 = 32 * m := by
  obtain ⟨cluster, _, inside⟩ := List.mem_flatMap.mp member
  exact entriesOf_aligned (k := 0) inside

/-- What FAT32_lookup finds has the name exactly if no entry that only looks like it comes
    first. -/
theorem lookup_sound_iff (fsbi : SbInfo) (w : World) (d : Component) (fuel firstCluster : Nat) :
    (∀ found w', run (FAT32Lookup fuel fsbi firstCluster d) w = some (some found, w') →
      Carries (viewOf fsbi w (heapBefore w) (heapBlock w) found.inode.dentryLocation)
        (32 * found.inode.dentryPosition) d.text) ↔
      Guarded (viewOf fsbi w (heapBefore w) (heapBlock w)) d
        (directoryEntries fsbi w fuel firstCluster) := by
  have search := find_good_iff (Taken fsbi w (heapBefore w) (heapBlock w) d)
    (fun e => Carries (viewOf fsbi w (heapBefore w) (heapBlock w) e.1) e.2 d.text)
    (directoryEntries fsbi w fuel firstCluster)
  simp only [taken_iff] at search
  rw [Guarded, ← search]
  have place : ∀ e, (directoryEntries fsbi w fuel firstCluster).find?
      (Taken fsbi w (heapBefore w) (heapBlock w) d) = some e →
      (32 * ((e.2 / 32).toNat : Int)) = e.2 := by
    intro e at_
    obtain ⟨m, offset⟩ := directoryEntries_aligned (List.mem_of_find?_eq_some at_)
    omega
  constructor
  · intro sound e at_
    obtain ⟨w', ran⟩ := (lookup_run fsbi w d fuel firstCluster _).mpr ⟨e, at_, rfl⟩
    have named := sound _ _ ran
    simp only [foundAt, place e at_] at named
    exact named
  · intro first found w' ran
    obtain ⟨e, at_, made⟩ := (lookup_run fsbi w d fuel firstCluster found).mp ⟨w', ran⟩
    rw [made]
    simp only [foundAt, place e at_]
    exact first e at_

def componentOf (text : List UInt8) (nonempty : 0 < text.length) (solid : ∀ c ∈ text, c ≠ 0) :
    Component where
  name := fun i => text.getD i 0
  nameLength := text.length
  nonempty := nonempty
  inside := by
    intro i within
    have char : text.getD i 0 = text[i] := by simp [within]
    rw [char]
    exact solid _ (List.getElem_mem within)
  terminated := by simp

/- A volume of clusters of one sector, its first cluster in sector 4. -/
def oneSectorVolume : SbInfo := ⟨0, 8, 1, 512, 4, 2, 1, 2⟩

theorem oneSector_layout : Layout oneSectorVolume :=
  ⟨rfl, by decide, by decide, by decide, by decide, by decide, by decide, by decide⟩

def directoryDisk (entries : List UInt8) : World where
  disk := fun i =>
    if 2048 ≤ i then entries.getD (i - 2048) 0 else if 1032 ≤ i ∧ i < 1036 then 0xff else 0
  memory := zeros
  fresh := []
  written := []
  touched := []

def readmeEntry : List UInt8 :=
  [0x52, 0x45, 0x41, 0x44, 0x4d, 0x45, 0x20, 0x20, 0x54, 0x58, 0x54, 0x20]

def readmeTxtx : Component :=
  componentOf [0x52, 0x45, 0x41, 0x44, 0x4d, 0x45, 0x2e, 0x54, 0x58, 0x54, 0x58]
    (by decide) (by decide +kernel)

/- Looking up README.TXTX gives README.TXT. -/
theorem lookup_takes_more :
    ¬ ∀ (fsbi : SbInfo) (w : World) (d : Component) (fuel firstCluster : Nat) (found : Found)
      (w' : World), run (FAT32Lookup fuel fsbi firstCluster d) w = some (some found, w') →
        Carries (viewOf fsbi w (heapBefore w) (heapBlock w) found.inode.dentryLocation)
          (32 * found.inode.dentryPosition) d.text := by
  intro sound
  have runs : (run (FAT32Lookup 1 oneSectorVolume 2 readmeTxtx) (directoryDisk readmeEntry)).map
      (fun r => r.1.map fun found => (found.inode.dentryLocation, found.inode.dentryPosition)) =
      some (some (2, 0)) := by decide +kernel
  obtain ⟨⟨answer, w'⟩, ran, place⟩ := Option.map_eq_some_iff.mp runs
  obtain ⟨found, some_, at_⟩ := Option.map_eq_some_iff.mp place
  dsimp only at some_
  rw [some_] at ran
  have named := sound _ _ _ _ _ found w' ran
  rw [(Prod.mk.inj at_).1, (Prod.mk.inj at_).2] at named
  rcases named with long | short
  · exact absurd long.1 (by decide +kernel)
  · exact absurd short (by decide +kernel)

end NameMatching

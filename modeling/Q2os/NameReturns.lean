import Q2os.BoundedLoop
import Q2os.Chains
import Q2os.DirectorySearch

/- Whether FAT32_lookup and FAT32_readdir return, whatever the table and the directory hold. -/
namespace NameReturns
open ByteMemory BlockProgram Fat32 NameMatching BoundedLoop

theorem iterate_eq (fsbi : SbInfo) (w : World) (cluster n : Nat) :
    (fatEntry fsbi w)^[n] cluster = clusterAt fsbi w cluster n := by
  induction n generalizing cluster with
  | zero => rfl
  | succ n ih => exact ih (fatEntry fsbi w cluster)

def namedIn (fsbi : SbInfo) (view : Nat → View) (d : Component) (cluster : Nat) : Option Int :=
  firstNamed (view cluster) d (entriesFrom fsbi 0) 0

def LookupStops (fsbi : SbInfo) (w : World) (view : Nat → View) (d : Component)
    (cluster : Nat) : Prop :=
  (namedIn fsbi view d cluster).isSome = true ∨ ¬ fatEntry fsbi w cluster < 0x0ffffff7

instance (fsbi : SbInfo) (w : World) (view : Nat → View) (d : Component) :
    DecidablePred (LookupStops fsbi w view d) :=
  fun _ => inferInstanceAs (Decidable (_ ∨ _))

def lookupAnswer (fsbi : SbInfo) (view : Nat → View) (d : Component) (cluster : Nat) :
    Option Found :=
  (namedIn fsbi view d cluster).map (foundAt (view cluster) cluster)

theorem viewOf_again (fsbi : SbInfo) (w : World) (before block : Memory) (first : Nat) :
    viewOf fsbi w before (copy (w.sectors (directorySector fsbi first)) 0 block 0
      (512 * fsbi.sectorPerCluster)) = viewOf fsbi w before block := by
  funext cluster
  simp only [viewOf, copy_over]

/-- FAT32_lookup is the loop over the clusters that the table links. -/
theorem lookupFrom_loop (fsbi : SbInfo) (w : World) (before block : Memory) (d : Component)
    (fuel cluster : Nat) :
    run (lookupFrom fsbi before block d fuel cluster) w =
      (loop (LookupStops fsbi w (viewOf fsbi w before block) d) (fatEntry fsbi w)
        (lookupAnswer fsbi (viewOf fsbi w before block) d) fuel cluster).map
        fun found => (found, w) := by
  induction fuel generalizing block cluster with
  | zero => rfl
  | succ fuel ih =>
    have rest := ih (copy (w.sectors (directorySector fsbi cluster)) 0 block 0
      (512 * fsbi.sectorPerCluster)) (fatEntry fsbi w cluster)
    rw [viewOf_again] at rest
    simp only [lookupFrom, run_bind, readSectors, run, Option.bind_some, loop]
    have seen : firstNamed (around before (copy (w.sectors (directorySector fsbi cluster)) 0 block 0
        (512 * fsbi.sectorPerCluster))) d (entriesFrom fsbi 0) 0 =
        namedIn fsbi (viewOf fsbi w before block) d cluster := rfl
    rw [seen]
    cases named : namedIn fsbi (viewOf fsbi w before block) d cluster with
    | some p =>
      have stop : LookupStops fsbi w (viewOf fsbi w before block) d cluster :=
        Or.inl (by rw [named]; rfl)
      rw [if_pos stop, lookupAnswer, named]
      rfl
    | none =>
      simp only [run_bind, run_readFATEntry, Option.bind_some]
      by_cases more : fatEntry fsbi w cluster < 0x0ffffff7
      · have goes_on : ¬ LookupStops fsbi w (viewOf fsbi w before block) d cluster := by
          simp only [LookupStops, named, more, Option.isSome_none, Bool.false_eq_true, not_true_eq_false,
            or_self, not_false_eq_true]
        rw [if_pos more, if_neg goes_on]
        exact rest
      · have stop : LookupStops fsbi w (viewOf fsbi w before block) d cluster := Or.inr more
        rw [if_neg more, if_pos stop, lookupAnswer, named]
        rfl

/-- FAT32_lookup returns exactly if the links lead to a cluster with an entry it takes or to the
    end of a chain. -/
theorem lookup_returns_iff (fsbi : SbInfo) (w : World) (d : Component) (firstCluster : Nat) :
    (∃ fuel r, run (FAT32Lookup fuel fsbi firstCluster d) w = some r) ↔
      ∃ n, LookupStops fsbi w (viewOf fsbi w (heapBefore w) (heapBlock w)) d
        (clusterAt fsbi w (firstCluster % 2 ^ 32) n) := by
  have returns := loop_returns_iff
    (LookupStops fsbi w (viewOf fsbi w (heapBefore w) (heapBlock w)) d) (fatEntry fsbi w)
    (lookupAnswer fsbi (viewOf fsbi w (heapBefore w) (heapBlock w)) d) (firstCluster % 2 ^ 32)
  have ran : ∀ fuel, run (FAT32Lookup fuel fsbi firstCluster d) w =
      (loop (LookupStops fsbi w (viewOf fsbi w (heapBefore w) (heapBlock w)) d) (fatEntry fsbi w)
        (lookupAnswer fsbi (viewOf fsbi w (heapBefore w) (heapBlock w)) d) fuel
        (firstCluster % 2 ^ 32)).map fun found => (found, { w with fresh := w.fresh.tail.tail }) :=
    fun fuel => lookupFrom_loop fsbi { w with fresh := w.fresh.tail.tail } (heapBefore w)
      (heapBlock w) d fuel (firstCluster % 2 ^ 32)
  simp only [iterate_eq] at returns
  simp only [← returns, ran, Option.map_eq_some_iff]
  constructor
  · intro some_
    obtain ⟨fuel, _, found, looped, _⟩ := some_
    exact ⟨fuel, found, looped⟩
  · intro some_
    obtain ⟨fuel, found, looped⟩ := some_
    exact ⟨fuel, _, found, looped, rfl⟩

def liveIn (fsbi : SbInfo) (view : Nat → View) (place : Nat × Int) : Option Int :=
  firstLive (view place.1) (entriesFrom fsbi (place.2.tmod fsbi.bytesPerCluster))
    (place.2.tmod fsbi.bytesPerCluster)

def ReaddirStops (fsbi : SbInfo) (w : World) (view : Nat → View) (place : Nat × Int) : Prop :=
  (liveIn fsbi view place).isSome = true ∨ ¬ fatEntry fsbi w place.1 < 0x0ffffff7

instance (fsbi : SbInfo) (w : World) (view : Nat → View) :
    DecidablePred (ReaddirStops fsbi w view) :=
  fun _ => inferInstanceAs (Decidable (_ ∨ _))

def passed (fsbi : SbInfo) (position : Int) : Int :=
  position + 32 * (entriesFrom fsbi (position.tmod fsbi.bytesPerCluster) : Nat)

def nextPlace (fsbi : SbInfo) (w : World) (place : Nat × Int) : Nat × Int :=
  (fatEntry fsbi w place.1, passed fsbi place.2)

def readdirAnswer (fsbi : SbInfo) (view : Nat → View) (place : Nat × Int) :
    Option (View × Int) × Int :=
  match liveIn fsbi view place with
  | some p =>
    (some (view place.1, p), place.2 + (p - place.2.tmod fsbi.bytesPerCluster) + 32)
  | none => (none, passed fsbi place.2)

/-- FAT32_readdir is the loop over the clusters and positions. -/
theorem readdirFrom_loop (fsbi : SbInfo) (w : World) (before block : Memory)
    (fuel cluster : Nat) (position : Int) :
    run (readdirFrom fsbi before block fuel cluster position) w =
      (loop (ReaddirStops fsbi w (viewOf fsbi w before block)) (nextPlace fsbi w)
        (readdirAnswer fsbi (viewOf fsbi w before block)) fuel (cluster, position)).map
        fun answer => (answer, w) := by
  induction fuel generalizing block cluster position with
  | zero => rfl
  | succ fuel ih =>
    have rest := ih (copy (w.sectors (directorySector fsbi cluster)) 0 block 0
      (512 * fsbi.sectorPerCluster)) (fatEntry fsbi w cluster) (passed fsbi position)
    rw [viewOf_again] at rest
    simp only [readdirFrom, run_bind, readSectors, run, Option.bind_some, loop]
    have seen : firstLive (around before (copy (w.sectors (directorySector fsbi cluster)) 0 block 0
        (512 * fsbi.sectorPerCluster))) (entriesFrom fsbi (position.tmod fsbi.bytesPerCluster))
        (position.tmod fsbi.bytesPerCluster) =
        liveIn fsbi (viewOf fsbi w before block) (cluster, position) := rfl
    rw [seen]
    cases live : liveIn fsbi (viewOf fsbi w before block) (cluster, position) with
    | some p =>
      have stop : ReaddirStops fsbi w (viewOf fsbi w before block) (cluster, position) :=
        Or.inl (by rw [live]; rfl)
      rw [if_pos stop, readdirAnswer, live]
      rfl
    | none =>
      simp only [run_bind, run_readFATEntry, Option.bind_some]
      by_cases more : fatEntry fsbi w cluster < 0x0ffffff7
      · have goes_on : ¬ ReaddirStops fsbi w (viewOf fsbi w before block) (cluster, position) := by
          simp only [ReaddirStops, live, more, Option.isSome_none, Bool.false_eq_true,
            not_true_eq_false, or_self, not_false_eq_true]
        rw [if_pos more, if_neg goes_on]
        exact rest
      · have stop : ReaddirStops fsbi w (viewOf fsbi w before block) (cluster, position) :=
          Or.inr more
        rw [if_neg more, if_pos stop, readdirAnswer, live]
        rfl

def sought (link : Nat → Nat) : Nat → Nat → Option Nat
  | 0, cluster => some cluster
  | n + 1, cluster =>
    if link cluster > 0x0ffffff7 then none else sought link n (link cluster)

theorem run_seekCluster (fsbi : SbInfo) (w : World) (n cluster : Nat) :
    run (seekCluster fsbi n cluster) w = some (sought (fatEntry fsbi w) n cluster, w) := by
  induction n generalizing cluster with
  | zero => rfl
  | succ n ih =>
    simp only [seekCluster, run_bind, run_readFATEntry, Option.bind_some, sought]
    split
    · rfl
    · exact ih _

/- The long slots below an entry come to an end, where it has any. -/
def SlotsEnd (v : View) (p : Int) : Prop :=
  longSlot v (p - 32) = true → ∃ fuel, (countSlots v fuel (p - 32)).isSome = true

theorem countSlots_more {v : View} {fuel more n : Nat} {p : Int}
    (counted : countSlots v fuel p = some n) (enough : fuel ≤ more) :
    countSlots v more p = some n := by
  induction fuel generalizing more n p with
  | zero => cases counted
  | succ fuel ih =>
    obtain ⟨more, rfl⟩ : ∃ m, more = m + 1 := ⟨more - 1, by omega⟩
    rw [countSlots] at counted ⊢
    split at counted
    · rename_i slot
      rw [if_pos slot]
      split at counted
      · rename_i last
        rw [if_pos last]
        exact counted
      · rename_i last
        obtain ⟨k, below, rest⟩ := Option.map_eq_some_iff.mp counted
        rw [if_neg last, ih below (by omega), ← rest]
        rfl
    · rename_i slot
      rw [if_neg slot]
      exact counted

theorem readdirName_more {v : View} {fuel more : Nat} {p : Int} {name : List UInt8}
    (named : readdirName fuel v p = some name) (enough : fuel ≤ more) :
    readdirName more v p = some name := by
  rw [readdirName] at named ⊢
  split at named
  · rename_i slot
    obtain ⟨n, counted, made⟩ := Option.map_eq_some_iff.mp named
    rw [if_pos slot, countSlots_more counted enough, ← made]
    rfl
  · rename_i slot
    rw [if_neg slot]
    exact named

theorem readdirName_ends {v : View} {p : Int} :
    (∃ fuel name, readdirName fuel v p = some name) ↔ SlotsEnd v p := by
  by_cases slot : longSlot v (p - 32) = true
  · have made : ∀ fuel, readdirName fuel v p =
        (countSlots v fuel (p - 32)).map fun n => longName v n (p - 32) := fun _ => if_pos slot
    simp only [made, Option.map_eq_some_iff, SlotsEnd, slot, forall_const, Option.isSome_iff_exists]
    constructor
    · intro named
      obtain ⟨fuel, _, n, counted, _⟩ := named
      exact ⟨fuel, n, counted⟩
    · intro ends
      obtain ⟨fuel, n, counted⟩ := ends
      exact ⟨fuel, _, n, counted, rfl⟩
  · constructor
    · intro _ long
      exact absurd long slot
    · intro _
      exact ⟨0, _, if_neg slot⟩

section readdir
variable (fsbi : SbInfo) (w : World) (firstCluster : Nat) (position : Int)

def shown : Nat → View := viewOf fsbi w (heapBefore w) (heapBlock w)

def named (fuel : Nat) (answer : Option (View × Int) × Int) : Option (Option (List UInt8) × Int) :=
  match answer.1 with
  | none => some (none, answer.2)
  | some e => (readdirName fuel e.1 e.2).map fun name => (some name, answer.2)

theorem named_more {fuel more : Nat} {answer : Option (View × Int) × Int}
    {r : Option (List UInt8) × Int} (spelt : named fuel answer = some r) (enough : fuel ≤ more) :
    named more answer = some r := by
  obtain ⟨entry, position⟩ := answer
  cases entry with
  | none => exact spelt
  | some e =>
    obtain ⟨name, made, same⟩ := Option.map_eq_some_iff.mp spelt
    exact Option.map_eq_some_iff.mpr ⟨name, readdirName_more made enough, same⟩

theorem readdir_run (some_bytes : fsbi.bytesPerCluster ≠ 0) (fuel : Nat) :
    run (FAT32Readdir fuel fsbi firstCluster position) w =
      (match sought (fatEntry fsbi w) (walkLength fsbi position) (firstCluster % 2 ^ 32) with
        | none => some (none, position)
        | some c => (loop (ReaddirStops fsbi w (shown fsbi w)) (nextPlace fsbi w)
            (readdirAnswer fsbi (shown fsbi w)) fuel (c, position)).bind (named fuel)).map
        fun r => (r, { w with fresh := w.fresh.tail.tail }) := by
  have found : run (seekCluster fsbi (walkLength fsbi position) (firstCluster % 2 ^ 32))
      { w with fresh := w.fresh.tail.tail } = some (sought (fatEntry fsbi w)
        (walkLength fsbi position) (firstCluster % 2 ^ 32),
        { w with fresh := w.fresh.tail.tail }) :=
    run_seekCluster fsbi { w with fresh := w.fresh.tail.tail } _ _
  simp only [FAT32Readdir, if_neg some_bytes, run_bind, alloc, run, Option.bind_some, found]
  cases sought (fatEntry fsbi w) (walkLength fsbi position) (firstCluster % 2 ^ 32) with
  | none => rfl
  | some c =>
    have looped : run (readdirFrom fsbi (heapBefore w) (heapBlock w) fuel c position)
        { w with fresh := w.fresh.tail.tail } =
        (loop (ReaddirStops fsbi w (shown fsbi w)) (nextPlace fsbi w)
          (readdirAnswer fsbi (shown fsbi w)) fuel (c, position)).map
          fun answer => (answer, { w with fresh := w.fresh.tail.tail }) :=
      readdirFrom_loop fsbi { w with fresh := w.fresh.tail.tail } (heapBefore w) (heapBlock w) fuel
        c position
    unfold heapBefore heapBlock at looped
    simp only [run_bind, looped]
    cases loop (ReaddirStops fsbi w (shown fsbi w)) (nextPlace fsbi w)
        (readdirAnswer fsbi (shown fsbi w)) fuel (c, position) with
    | none => rfl
    | some answer =>
      obtain ⟨entry, position'⟩ := answer
      cases entry with
      | none => rfl
      | some entry =>
        simp only [Option.map_some, Option.bind_some, named]
        cases readdirName fuel entry.1 entry.2 with
        | none => rfl
        | some name => rfl

/-- FAT32_readdir returns exactly if the walk to the position ends before it, or the links lead
    from there to the end of a chain or to an entry in use whose long slots end. -/
theorem readdir_returns_iff (some_bytes : fsbi.bytesPerCluster ≠ 0) :
    (∃ fuel r, run (FAT32Readdir fuel fsbi firstCluster position) w = some r) ↔
      ∀ c, sought (fatEntry fsbi w) (walkLength fsbi position) (firstCluster % 2 ^ 32) =
          some c →
        ∃ n, FirstStop (ReaddirStops fsbi w (shown fsbi w)) (nextPlace fsbi w) (c, position) n ∧
          ∀ p, liveIn fsbi (shown fsbi w) ((nextPlace fsbi w)^[n] (c, position)) = some p →
            SlotsEnd (shown fsbi w ((nextPlace fsbi w)^[n] (c, position)).1) p := by
  simp only [readdir_run fsbi w firstCluster position some_bytes, Option.map_eq_some_iff]
  cases sought (fatEntry fsbi w) (walkLength fsbi position) (firstCluster % 2 ^ 32) with
  | none =>
    constructor
    · intro _ c there
      cases there
    · intro _
      exact ⟨0, _, _, rfl, rfl⟩
  | some c =>
    simp only [Option.bind_eq_some_iff, loop_some_iff, Option.some.injEq, forall_eq']
    constructor
    · intro returned
      obtain ⟨fuel, _, r, ⟨answer, ⟨n, _, stop, made⟩, spelt⟩, _⟩ := returned
      refine ⟨n, stop, fun p live => readdirName_ends.mp ?_⟩
      rw [← made, readdirAnswer, live] at spelt
      obtain ⟨name, named, _⟩ := Option.map_eq_some_iff.mp spelt
      exact ⟨fuel, name, named⟩
    · intro stops
      obtain ⟨n, stop, ends⟩ := stops
      obtain ⟨fuel, r, spelt⟩ : ∃ fuel r, named fuel (readdirAnswer fsbi (shown fsbi w)
          ((nextPlace fsbi w)^[n] (c, position))) = some r := by
        rw [readdirAnswer]
        cases live : liveIn fsbi (shown fsbi w) ((nextPlace fsbi w)^[n] (c, position)) with
        | none => exact ⟨0, _, rfl⟩
        | some p =>
          obtain ⟨fuel, name, spelt⟩ := readdirName_ends.mpr (ends p live)
          exact ⟨fuel, _, Option.map_eq_some_iff.mpr ⟨name, spelt, rfl⟩⟩
      exact ⟨max (n + 1) fuel, _, r, ⟨_, ⟨n, by omega, stop, rfl⟩, named_more spelt (by omega)⟩, rfl⟩

end readdir

/-- What FAT32_lookup and FAT32_readdir do on every content of the table and the data area. -/
theorem name_calls_return_iff (fsbi : SbInfo) (w : World) (firstCluster : Nat)
    (some_bytes : fsbi.bytesPerCluster ≠ 0) :
    (∀ d : Component, (∃ fuel r, run (FAT32Lookup fuel fsbi firstCluster d) w = some r) ↔
      ∃ n, LookupStops fsbi w (shown fsbi w) d (clusterAt fsbi w (firstCluster % 2 ^ 32) n)) ∧
    ∀ position : Int, (∃ fuel r, run (FAT32Readdir fuel fsbi firstCluster position) w = some r) ↔
      ∀ c, sought (fatEntry fsbi w) (walkLength fsbi position) (firstCluster % 2 ^ 32) =
          some c →
        ∃ n, FirstStop (ReaddirStops fsbi w (shown fsbi w)) (nextPlace fsbi w) (c, position) n ∧
          ∀ p, liveIn fsbi (shown fsbi w) ((nextPlace fsbi w)^[n] (c, position)) = some p →
            SlotsEnd (shown fsbi w ((nextPlace fsbi w)^[n] (c, position)).1) p :=
  ⟨fun d => lookup_returns_iff fsbi w d firstCluster,
    fun position => readdir_returns_iff fsbi w firstCluster position some_bytes⟩

theorem name_calls_return_readme :
    (∃ fuel r, run (FAT32Lookup fuel oneSectorVolume 2 readmeTxtx) (directoryDisk readmeEntry) =
        some r) ∧
      ∃ fuel r, run (FAT32Readdir fuel oneSectorVolume 2 0) (directoryDisk readmeEntry) =
        some r := by
  have calls := name_calls_return_iff oneSectorVolume (directoryDisk readmeEntry) 2 (by decide)
  refine ⟨(calls.1 readmeTxtx).mpr ⟨0, by decide +kernel⟩, (calls.2 0).mpr fun c there => ?_⟩
  have start : c = 2 := (Option.some.inj there).symm
  refine ⟨0, firstStop_zero _ _ ?_, fun p live => ?_⟩
  · rw [start]
    decide +kernel
  · rw [start] at live ⊢
    have place : liveIn oneSectorVolume (shown oneSectorVolume (directoryDisk readmeEntry)) (2, 0) =
        some 0 := by decide +kernel
    have here : p = 0 := Option.some.inj (live.symm.trans place)
    intro long
    rw [here] at long
    exact absurd long (by decide +kernel)

/-- A directory whose chain ends is always looked through. -/
theorem lookup_returns {fsbi : SbInfo} {w : World} {first len : Nat}
    (chain : Chain fsbi w first (len + 1)) (d : Component) :
    ∃ fuel r, run (FAT32Lookup fuel fsbi first d) w = some r := by
  have small := valid_small (chain.valid 0 (Nat.succ_pos len))
  have word : first % 2 ^ 32 = first := Nat.mod_eq_of_lt (by unfold clusterAt at small; omega)
  have mark := chain.ends
  rw [clusterAt_succ] at mark
  apply (lookup_returns_iff fsbi w d first).mpr
  rw [word]
  exact ⟨len, Or.inr (by omega)⟩

/- An empty directory whose one cluster links to itself. -/
def cyclicDisk : World where
  disk := fun i => if i = 1032 then 2 else 0
  memory := zeros
  fresh := []
  written := []
  touched := []

theorem cyclic_cluster (n : Nat) : clusterAt oneSectorVolume cyclicDisk 2 n = 2 := by
  induction n with
  | zero => rfl
  | succ n ih =>
    rw [clusterAt_succ, ih]
    decide +kernel

theorem lookup_in_cycle : ¬ ∀ (fsbi : SbInfo) (w : World) (d : Component) (firstCluster : Nat),
    Layout fsbi → ∃ fuel r, run (FAT32Lookup fuel fsbi firstCluster d) w = some r := by
  intro claim
  obtain ⟨n, stops⟩ := (lookup_returns_iff _ _ _ _).mp
    (claim oneSectorVolume cyclicDisk readmeTxtx 2
      ⟨rfl, by decide, by decide, by decide, by decide, by decide, by decide, by decide⟩)
  have start : 2 % 2 ^ 32 = 2 := by decide
  rw [start, cyclic_cluster] at stops
  exact absurd stops (by decide +kernel)

end NameReturns

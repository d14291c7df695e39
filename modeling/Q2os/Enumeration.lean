import Q2os.ListedNames
import Q2os.NameReturns

/- Repeated calls of FAT32_readdir: the entries in use of a directory, one a call and in order,
   and nothing behind them. -/
namespace Enumeration
open ByteMemory BlockProgram Fat32 NameMatching NameReturns BoundedLoop

/-- A directory of len clusters. What its table says of them is no bad-cluster mark. -/
structure Directory (fsbi : SbInfo) (w : World) (first len : Nat) : Prop where
  chain : Chain fsbi w first len
  some_clusters : 0 < len
  sound : ∀ i < len, clusterAt fsbi w first i ≠ 0x0ffffff7

def clusterOf (fsbi : SbInfo) (w : World) (first s : Nat) : Nat :=
  clusterAt fsbi w first (32 * s / fsbi.bytesPerCluster)

def offsetOf (fsbi : SbInfo) (s : Nat) : Nat := 32 * s % fsbi.bytesPerCluster

def total (fsbi : SbInfo) (len : Nat) : Nat := len * fsbi.bytesPerCluster / 32

def used (fsbi : SbInfo) (w : World) (first s : Nat) : Bool :=
  live (viewOf fsbi w zeros zeros (clusterOf fsbi w first s)) (offsetOf fsbi s)

def usedFrom (fsbi : SbInfo) (w : World) (first len s : Nat) : List Nat :=
  (List.range' s (total fsbi len - s)).filter (used fsbi w first)

/-- The entries in use of a directory, in the order of the disk. -/
def inUse (fsbi : SbInfo) (w : World) (first len : Nat) : List Nat :=
  (List.range (total fsbi len)).filter (used fsbi w first)

/-- The position after t calls: behind the t-th entry, or at the end of the directory. -/
def positionAfter (fsbi : SbInfo) (len : Nat) (entries : List Nat) : Nat → Nat
  | 0 => 0
  | t + 1 => entries[t]?.elim (len * fsbi.bytesPerCluster) fun s => 32 * s + 32

/-- What a call answers for an entry: a name FAT32_readdir spells it with; NULL for none. -/
def Spelt (fsbi : SbInfo) (w : World) (first : Nat) : Option Nat → Option (List UInt8) → Prop
  | some s, some name => ∃ fuel,
    readdirName fuel (shown fsbi w (clusterOf fsbi w first s)) (offsetOf fsbi s) = some name
  | none, none => True
  | _, _ => False

/-- A call of FAT32_readdir at a position, its loops taking as many rounds as they need, answers
    and leaves the file at a new position. -/
def Reports (fsbi : SbInfo) (w : World) (first : Nat) (position : Int)
    (answer : Option (List UInt8) × Int) : Prop :=
  ∃ rounds, ∀ fuel ≥ rounds, ∃ w', run (FAT32Readdir fuel fsbi first position) w =
    some (answer, w') ∧ w'.disk = w.disk

section numbers
variable {fsbi : SbInfo} {w : World} {first len s : Nat}

theorem usedFrom_zero : usedFrom fsbi w first len 0 = inUse fsbi w first len := by
  rw [usedFrom, inUse, List.range_eq_range', Nat.sub_zero]

theorem usedFrom_end (end_ : total fsbi len ≤ s) : usedFrom fsbi w first len s = [] := by
  have none_ : total fsbi len - s = 0 := by omega
  rw [usedFrom, none_]
  rfl

theorem usedFrom_used (more : s < total fsbi len) (taken : used fsbi w first s = true) :
    usedFrom fsbi w first len s = s :: usedFrom fsbi w first len (s + 1) := by
  have rest : total fsbi len - s = total fsbi len - (s + 1) + 1 := by omega
  rw [usedFrom, rest, List.range'_succ, List.filter_cons_of_pos taken]
  rfl

theorem usedFrom_free (more : s < total fsbi len) (free : used fsbi w first s = false) :
    usedFrom fsbi w first len s = usedFrom fsbi w first len (s + 1) := by
  have rest : total fsbi len - s = total fsbi len - (s + 1) + 1 := by omega
  rw [usedFrom, rest, List.range'_succ, List.filter_cons_of_neg (by simp [free])]
  rfl

theorem usedFrom_next {q : Nat} {more : List Nat} (listed : usedFrom fsbi w first len s = q :: more) :
    q < total fsbi len ∧ usedFrom fsbi w first len (q + 1) = more := by
  obtain ⟨left, below⟩ : ∃ left, total fsbi len - s = left := ⟨_, rfl⟩
  induction left generalizing s with
  | zero =>
    rw [usedFrom_end (by omega)] at listed
    cases listed
  | succ left ih =>
    cases taken : used fsbi w first s with
    | true =>
      rw [usedFrom_used (by omega) taken] at listed
      obtain ⟨here, rest⟩ := List.cons.inj listed
      rw [← here]
      exact ⟨by omega, rest⟩
    | false =>
      rw [usedFrom_free (by omega) taken] at listed
      exact ih listed (by omega)

theorem firstLive_usedFrom {v : View} {n : Nat} {i : Int} (inside : s + n ≤ total fsbi len)
    (seen : ∀ t < n, used fsbi w first (s + t) = live v (i + 32 * t)) :
    (∃ t < n, firstLive v n i = some (i + 32 * t) ∧
      ∃ more, usedFrom fsbi w first len s = (s + t) :: more) ∨
    (firstLive v n i = none ∧ usedFrom fsbi w first len s = usedFrom fsbi w first len (s + n)) := by
  induction n generalizing s i with
  | zero => exact Or.inr ⟨rfl, rfl⟩
  | succ n ih =>
    have here := seen 0 (Nat.succ_pos n)
    simp only [Nat.add_zero, Int.natCast_zero, Int.mul_zero, Int.add_zero] at here
    rw [firstLive]
    cases taken : live v i with
    | true =>
      left
      refine ⟨0, Nat.succ_pos n, by simp, _, usedFrom_used (by omega) (here.trans taken)⟩
    | false =>
      have later : ∀ t < n, used fsbi w first (s + 1 + t) = live v (i + 32 + 32 * t) := by
        intro t less
        have next := seen (t + 1) (Nat.succ_lt_succ less)
        have number : s + (t + 1) = s + 1 + t := by omega
        have byte : i + 32 * ((t + 1 : Nat) : Int) = i + 32 + 32 * t := by omega
        rw [number, byte] at next
        exact next
      rw [if_neg (by simp), usedFrom_free (by omega) (here.trans taken)]
      rcases ih (by omega) later with found | none_
      · obtain ⟨t, less, at_, more, listed⟩ := found
        left
        refine ⟨t + 1, Nat.succ_lt_succ less, ?_, more, ?_⟩
        · rw [at_]
          congr 1
          omega
        · rw [listed]
          congr 1
          omega
      · obtain ⟨none_, listed⟩ := none_
        right
        refine ⟨none_, ?_⟩
        rw [listed]
        congr 1
        omega

end numbers

theorem live_heap {fsbi : SbInfo} (formatted : Formatted fsbi) (w : World) (before block : Memory)
    (cluster : Nat) {a : Nat} (room : a + 32 ≤ fsbi.bytesPerCluster) :
    live (viewOf fsbi w before block cluster) a = live (viewOf fsbi w zeros zeros cluster) a := by
  have bytes := formatted.bytes
  have same : ∀ k : Nat, k < 32 → viewOf fsbi w before block cluster (a + k) =
      viewOf fsbi w zeros zeros cluster (a + k) := by
    intro k below
    rw [viewOf_inside fsbi w before block cluster (by omega) (by omega),
      viewOf_inside fsbi w zeros zeros cluster (by omega) (by omega)]
  have attr : dirAttr (viewOf fsbi w before block cluster) a =
      dirAttr (viewOf fsbi w zeros zeros cluster) a := congrArg UInt8.toNat (same 11 (by omega))
  have mark : dirName (viewOf fsbi w before block cluster) a 0 =
      dirName (viewOf fsbi w zeros zeros cluster) a 0 := congrArg UInt8.toNat (same 0 (by omega))
  rw [live, live, attr, mark]

theorem sought_cluster {fsbi : SbInfo} {w : World} {first len n k : Nat}
    (directory : Directory fsbi w first len) (within : k < len) :
    sought (fatEntry fsbi w) n (clusterAt fsbi w first k) =
      if k + n < len then some (clusterAt fsbi w first (k + n)) else none := by
  induction n generalizing k with
  | zero => rw [Nat.add_zero, if_pos within, sought]
  | succ n ih =>
    rw [sought, ← clusterAt_succ]
    by_cases more : k + 1 < len
    · have valid := (directory.chain.valid (k + 1) more).no_mark
      rw [if_neg (by omega), ih more, Nat.add_assoc, Nat.add_comm 1 n]
    · have mark := directory.chain.ends
      have last : k + 1 = len := by omega
      rw [if_pos (by rw [last]; omega), if_neg (by omega)]

section calls
variable {fsbi : SbInfo} (formatted : Formatted fsbi) {w : World} {first len : Nat}
include formatted

theorem some_bytes : 0 < fsbi.bytesPerCluster ∧ fsbi.bytesPerCluster % 32 = 0 := by
  have bytes := formatted.bytes
  exact ⟨formatted.some_bytes, by omega⟩

theorem total_bytes : 32 * total fsbi len = len * fsbi.bytesPerCluster := by
  have whole := Nat.dvd_mul_left_of_dvd (Nat.dvd_of_mod_eq_zero (some_bytes formatted).2) len
  unfold total
  omega

theorem place_within {s k i t : Nat} (at_ : 32 * s = k * fsbi.bytesPerCluster + i)
    (inside : i + 32 * t < fsbi.bytesPerCluster) :
    32 * (s + t) / fsbi.bytesPerCluster = k ∧ 32 * (s + t) % fsbi.bytesPerCluster = i + 32 * t := by
  have positive := (some_bytes formatted).1
  have byte : 32 * (s + t) = i + 32 * t + k * fsbi.bytesPerCluster := by omega
  rw [byte, Nat.add_mul_div_right _ _ positive, Nat.add_mul_mod_self_right,
    Nat.div_eq_of_lt inside, Nat.mod_eq_of_lt inside, Nat.zero_add]
  exact ⟨rfl, rfl⟩

/- The entry the loop over the clusters comes to, and the position behind it. -/
def met (fsbi : SbInfo) (w : World) (first len : Nat) : List Nat → Option (View × Int) × Int
  | [] => (none, (len * fsbi.bytesPerCluster : Nat))
  | q :: _ =>
    (some (shown fsbi w (clusterOf fsbi w first q), (offsetOf fsbi q : Int)), (32 * q + 32 : Nat))

theorem cluster_scan {k s : Nat} (here : 32 * s / fsbi.bytesPerCluster = k) (within : k < len) :
    ∃ n, 32 * (s + n) = (k + 1) * fsbi.bytesPerCluster ∧
      passed fsbi (32 * s : Nat) = (32 * (s + n) : Nat) ∧
      ((∃ t more, usedFrom fsbi w first len s = (s + t) :: more ∧
        readdirAnswer fsbi (shown fsbi w) (clusterAt fsbi w first k, (32 * s : Nat)) =
          met fsbi w first len ((s + t) :: more) ∧
        (liveIn fsbi (shown fsbi w) (clusterAt fsbi w first k, (32 * s : Nat))).isSome = true) ∨
      (usedFrom fsbi w first len s = usedFrom fsbi w first len (s + n) ∧
        liveIn fsbi (shown fsbi w) (clusterAt fsbi w first k, (32 * s : Nat)) = none)) := by
  obtain ⟨positive, whole⟩ := some_bytes formatted
  obtain ⟨i, byte⟩ : ∃ i, 32 * s % fsbi.bytesPerCluster = i := ⟨_, rfl⟩
  have less := Nat.mod_lt (32 * s) positive
  have offset : ((32 * s : Nat) : Int).tmod fsbi.bytesPerCluster = i := by
    rw [tmod_cluster, byte]
  have aligned : i % 32 = 0 := by
    rw [← byte, Nat.mod_mod_of_dvd _ (Nat.dvd_of_mod_eq_zero whole)]
    exact Nat.mul_mod_right 32 s
  have parts := Nat.div_add_mod' (32 * s) fsbi.bytesPerCluster
  rw [byte] at less parts
  rw [here] at parts
  have entries := entriesFrom_eq formatted (i := i) (by omega) (by omega)
  have last : (k + 1) * fsbi.bytesPerCluster ≤ len * fsbi.bytesPerCluster :=
    Nat.mul_le_mul_right _ within
  have next : (k + 1) * fsbi.bytesPerCluster = k * fsbi.bytesPerCluster + fsbi.bytesPerCluster :=
    Nat.succ_mul _ _
  have bytes := @total_bytes fsbi formatted len
  have place := fun t (inside : i + 32 * t < fsbi.bytesPerCluster) =>
    place_within formatted parts.symm inside
  refine ⟨entriesFrom fsbi i, by omega, by rw [passed, offset]; omega, ?_⟩
  have search := @firstLive_usedFrom fsbi w first len s
    (shown fsbi w (clusterAt fsbi w first k)) (entriesFrom fsbi i) i (by omega) fun t within => by
      obtain ⟨cluster, offset⟩ := place t (by omega)
      have byte_at : (i : Int) + 32 * t = ((i + 32 * t : Nat) : Int) := by omega
      rw [used, clusterOf, cluster, offsetOf, offset, byte_at]
      exact (live_heap formatted w _ _ _ (by omega)).symm
  rcases search with found | none_
  · obtain ⟨t, within, at_, more, listed⟩ := found
    obtain ⟨cluster, entry⟩ := place t (by omega)
    have byte_at : (i : Int) + 32 * t = ((i + 32 * t : Nat) : Int) := by omega
    rw [byte_at] at at_
    have live : liveIn fsbi (shown fsbi w) (clusterAt fsbi w first k, ((32 * s : Nat) : Int)) =
        some ((i + 32 * t : Nat) : Int) := by
      rw [liveIn, offset]
      exact at_
    refine Or.inl ⟨t, more, listed, ?_, by rw [live]; rfl⟩
    have behind : ((32 * s : Nat) : Int) + (((i + 32 * t : Nat) : Int) - i) + 32 =
        (32 * (s + t) + 32 : Nat) := by omega
    rw [readdirAnswer, live, met, clusterOf, cluster, offsetOf, entry]
    dsimp only
    rw [offset, behind]
  · obtain ⟨none_, listed⟩ := none_
    refine Or.inr ⟨listed, ?_⟩
    rw [liveIn, offset]
    exact none_

/-- The loop from an entry on meets the next one in use. -/
theorem loop_meets (directory : Directory fsbi w first len) {left k s fuel : Nat}
    (here : 32 * s / fsbi.bytesPerCluster = k) (clusters : k + left + 1 = len)
    (enough : left < fuel) :
    loop (ReaddirStops fsbi w (shown fsbi w)) (nextPlace fsbi w) (readdirAnswer fsbi (shown fsbi w))
        fuel (clusterAt fsbi w first k, (32 * s : Nat)) =
      some (met fsbi w first len (usedFrom fsbi w first len s)) := by
  obtain ⟨positive, _⟩ := some_bytes formatted
  have bytes := @total_bytes fsbi formatted len
  induction left generalizing k s fuel with
  | zero =>
    obtain ⟨fuel, rfl⟩ := Nat.exists_eq_succ_of_ne_zero (Nat.ne_of_gt enough)
    obtain ⟨n, next, behind, either⟩ := @cluster_scan fsbi formatted w first len k s here (by omega)
    have mark := directory.chain.ends
    have last : k + 1 = len := by omega
    rw [← last, clusterAt_succ] at mark
    have stop : ReaddirStops fsbi w (shown fsbi w) (clusterAt fsbi w first k, (32 * s : Nat)) :=
      Or.inr (Nat.not_lt.mpr (Nat.le_trans (by decide) mark))
    rw [loop, if_pos stop]
    rcases either with found | none_
    · obtain ⟨t, more, listed, answer, _⟩ := found
      rw [listed, answer]
    · obtain ⟨listed, free⟩ := none_
      rw [last] at next
      rw [listed, usedFrom_end (by omega), readdirAnswer, free, met]
      dsimp only
      rw [behind, next]
  | succ left ih =>
    obtain ⟨fuel, rfl⟩ := Nat.exists_eq_succ_of_ne_zero (Nat.ne_of_gt (Nat.zero_lt_of_lt enough))
    obtain ⟨n, next, behind, either⟩ := @cluster_scan fsbi formatted w first len k s here (by omega)
    rcases either with found | none_
    · obtain ⟨t, more, listed, answer, live⟩ := found
      have stop : ReaddirStops fsbi w (shown fsbi w) (clusterAt fsbi w first k, (32 * s : Nat)) :=
        Or.inl live
      rw [loop, if_pos stop, listed, answer]
    · obtain ⟨listed, free⟩ := none_
      have mark := (directory.chain.valid (k + 1) (by omega)).no_mark
      have bad := directory.sound (k + 1) (by omega)
      rw [clusterAt_succ] at mark bad
      have links : fatEntry fsbi w (clusterAt fsbi w first k) < 0x0ffffff7 := by omega
      have goes_on :
          ¬ ReaddirStops fsbi w (shown fsbi w) (clusterAt fsbi w first k, (32 * s : Nat)) := by
        intro stops
        rcases stops with live | ends
        · rw [free] at live
          cases live
        · exact ends links
      have after : nextPlace fsbi w (clusterAt fsbi w first k, (32 * s : Nat)) =
          (clusterAt fsbi w first (k + 1), ((32 * (s + n) : Nat) : Int)) := by
        rw [nextPlace, behind, clusterAt_succ]
      rw [loop, if_neg goes_on, after, listed]
      apply ih
      · rw [next, Nat.mul_div_cancel _ positive]
      · omega
      · omega

/-- A call at an entry reports the next one in use and leaves the position behind it. -/
theorem call_reports (directory : Directory fsbi w first len) {s : Nat}
    (inside : s ≤ total fsbi len)
    (ends : ∀ q ∈ (usedFrom fsbi w first len s).head?,
      SlotsEnd (shown fsbi w (clusterOf fsbi w first q)) (offsetOf fsbi q)) :
    ∃ answer, Spelt fsbi w first (usedFrom fsbi w first len s).head? answer ∧
      Reports fsbi w first (32 * s : Nat) (answer, ((usedFrom fsbi w first len s).head?.elim
        (len * fsbi.bytesPerCluster) fun q => 32 * q + 32 : Nat)) := by
  obtain ⟨positive, _⟩ := some_bytes formatted
  have bytes := @total_bytes fsbi formatted len
  have small := valid_small (directory.chain.valid 0 directory.some_clusters)
  have word : first % 2 ^ 32 = first := Nat.mod_eq_of_lt (by unfold clusterAt at small; omega)
  have call := readdir_run fsbi w first (32 * s : Nat) (Nat.ne_of_gt positive)
  obtain ⟨k, here⟩ : ∃ k, 32 * s / fsbi.bytesPerCluster = k := ⟨_, rfl⟩
  have start : clusterAt fsbi w first 0 = first := rfl
  have walk := sought_cluster directory (n := k) directory.some_clusters
  have short := chain_short directory.chain
  have inside_chain : k ≤ len := by
    rw [← here]
    exact Nat.div_le_of_le_mul (by rw [Nat.mul_comm fsbi.bytesPerCluster]; omega)
  have links : walkLength fsbi (32 * s : Nat) = k := by
    rw [walkLength_eq (by omega), here]
  rw [Nat.zero_add, start] at walk
  rw [word, links, walk] at call
  by_cases past : k < len
  · rw [if_pos past] at call
    have looped := fun fuel (enough : len ≤ fuel) =>
      @loop_meets fsbi formatted w first len directory (len - 1 - k) k s fuel here (by omega)
        (by omega)
    cases listed : usedFrom fsbi w first len s with
    | nil =>
      refine ⟨none, trivial, len, fun fuel enough =>
        ⟨{ w with fresh := w.fresh.tail.tail }, ?_, rfl⟩⟩
      rw [call fuel]
      dsimp only
      rw [looped fuel enough, listed]
      rfl
    | cons q more =>
      rw [listed] at ends
      obtain ⟨rounds, name, spelt⟩ := readdirName_ends.mpr (ends q rfl)
      refine ⟨some name, ⟨rounds, spelt⟩, max len rounds, fun fuel enough =>
        ⟨{ w with fresh := w.fresh.tail.tail }, ?_, rfl⟩⟩
      rw [call fuel]
      dsimp only
      rw [looped fuel (by omega), listed, met, Option.bind_some, named]
      dsimp only
      rw [readdirName_more spelt (by omega)]
      rfl
  · rw [if_neg past] at call
    have reached := (Nat.le_div_iff_mul_le positive).mp (here ▸ Nat.le_of_not_lt past)
    have at_end : s = total fsbi len := by omega
    rw [usedFrom_end (Nat.le_of_eq at_end.symm)]
    refine ⟨none, trivial, 0, fun fuel _ => ⟨{ w with fresh := w.fresh.tail.tail }, ?_, rfl⟩⟩
    rw [call fuel, at_end, bytes]
    rfl

theorem usedFrom_after (t : Nat) :
    ∃ s ≤ total fsbi len, 32 * s = positionAfter fsbi len (inUse fsbi w first len) t ∧
      usedFrom fsbi w first len s = (inUse fsbi w first len).drop t := by
  have bytes := @total_bytes fsbi formatted len
  induction t with
  | zero => exact ⟨0, Nat.zero_le _, rfl, usedFrom_zero⟩
  | succ t ih =>
    obtain ⟨s, _, _, listed⟩ := ih
    have next : (inUse fsbi w first len).drop (t + 1) = ((inUse fsbi w first len).drop t).tail :=
      List.tail_drop.symm
    have entry : (inUse fsbi w first len)[t]? = ((inUse fsbi w first len).drop t).head? :=
      List.head?_drop.symm
    rw [positionAfter, next, entry, ← listed]
    cases left : usedFrom fsbi w first len s with
    | nil => exact ⟨total fsbi len, Nat.le_refl _, bytes, usedFrom_end (Nat.le_refl _)⟩
    | cons q more =>
      obtain ⟨inside, rest⟩ := usedFrom_next left
      exact ⟨q + 1, inside, rfl, rest⟩

end calls

/-- Calls of FAT32_readdir from position 0 on, between which the entries in use stay the same:
    the t-th reports the t-th of them, and those after the last report nothing. -/
theorem readdir_enumerates {fsbi : SbInfo} (formatted : Formatted fsbi) {first len : Nat}
    {calls : Nat → World} {entries : List Nat}
    (directory : ∀ t, Directory fsbi (calls t) first len)
    (kept : ∀ t, inUse fsbi (calls t) first len = entries)
    (ends : ∀ t, ∀ s ∈ entries,
      SlotsEnd (shown fsbi (calls t) (clusterOf fsbi (calls t) first s)) (offsetOf fsbi s))
    (t : Nat) : ∃ answer, Spelt fsbi (calls t) first entries[t]? answer ∧
      Reports fsbi (calls t) first (positionAfter fsbi len entries t)
        (answer, positionAfter fsbi len entries (t + 1)) := by
  obtain ⟨s, inside, position, left⟩ := @usedFrom_after fsbi formatted (calls t) first len t
  rw [kept t] at position left
  have entry : (usedFrom fsbi (calls t) first len s).head? = entries[t]? := by
    rw [left, List.head?_drop]
  have call := call_reports formatted (directory t) inside fun q member => by
    rw [entry] at member
    exact ends t q (List.mem_of_getElem? member)
  rw [entry, position] at call
  exact call

/- A directory of two clusters: an entry that was erased, README.TXT, B with a long slot before it,
   and A in the second cluster. -/
def twoClusterDisk : World where
  disk := fun i =>
    if 2560 ≤ i then ([0x41] ++ List.replicate 11 0x20 : List UInt8).getD (i - 2560) 0
    else if 2048 ≤ i then
      ([0xe5] ++ List.replicate 31 0 ++ readmeEntry ++ List.replicate 20 0 ++
        [0x41, 0x62, 0, 0, 0, 0, 0, 0, 0, 0, 0, 0x0f] ++ List.replicate 20 0 ++
        [0x42] ++ List.replicate 11 0x20).getD (i - 2048) 0
    else if i = 1032 then 3
    else if 1036 ≤ i ∧ i < 1040 then 0xff
    else 0
  memory := zeros
  fresh := []
  written := []
  touched := []

theorem twoCluster_directory : Directory oneSectorVolume twoClusterDisk 2 2 := by
  refine ⟨⟨fun i less => ?_, by decide +kernel⟩, by decide, fun i less => ?_⟩
  · match i, less with
    | 0, _ => exact ⟨by decide, (by decide : 2 < 128), by decide⟩
    | 1, _ =>
      have next : clusterAt oneSectorVolume twoClusterDisk 2 1 = 3 := by decide +kernel
      rw [next]
      exact ⟨by decide, (by decide : 3 < 128), by decide⟩
  · match i, less with
    | 0, _ => decide
    | 1, _ => decide +kernel

theorem readdir_enumerates_two_clusters :
    (∃ answer, Spelt oneSectorVolume twoClusterDisk 2 (some 1) answer ∧
      Reports oneSectorVolume twoClusterDisk 2 0 (answer, 64)) ∧
    (∃ answer, Spelt oneSectorVolume twoClusterDisk 2 (some 3) answer ∧
      Reports oneSectorVolume twoClusterDisk 2 64 (answer, 128)) ∧
    (∃ answer, Spelt oneSectorVolume twoClusterDisk 2 (some 16) answer ∧
      Reports oneSectorVolume twoClusterDisk 2 128 (answer, 544)) ∧
    ∃ answer, Spelt oneSectorVolume twoClusterDisk 2 none answer ∧
      Reports oneSectorVolume twoClusterDisk 2 544 (answer, 1024) := by
  have ends : ∀ s ∈ [1, 3, 16], SlotsEnd
      (shown oneSectorVolume twoClusterDisk (clusterOf oneSectorVolume twoClusterDisk 2 s))
      (offsetOf oneSectorVolume s) := by
    intro s member
    simp only [List.mem_cons, List.not_mem_nil, or_false] at member
    rcases member with rfl | rfl | rfl
    · exact fun long => absurd long (by decide +kernel)
    · exact fun _ => ⟨2, by decide +kernel⟩
    · exact fun long => absurd long (by decide +kernel)
  have calls := @readdir_enumerates oneSectorVolume oneSector_formatted 2 2 (fun _ => twoClusterDisk)
    [1, 3, 16] (fun _ => twoCluster_directory) (fun _ => by decide +kernel) (fun _ => ends)
  exact ⟨calls 0, calls 1, calls 2, calls 3⟩

end Enumeration

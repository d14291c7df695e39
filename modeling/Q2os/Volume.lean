import Q2os.Fat32

/- The volume on the disk: entries of the first table, and what a run of the operations on the
   tables changes. -/
namespace Fat32
open ByteMemory BlockProgram

def fatEntry (fsbi : SbInfo) (w : World) (cluster : Nat) : Nat :=
  let e := cluster % 2 ^ 32
  entryAt (w.sectors (fsbi.FAT1Firstsector + e / 128)) (e % 128) % 2 ^ 28

theorem run_readFATEntry (fsbi : SbInfo) (w : World) (cluster : Nat) :
    run (DISK1FAT32ReadFATEntry fsbi cluster) w = some (fatEntry fsbi w cluster, w) := rfl

theorem getLittle_congr {m m' : Memory} {a b n : Nat} (same : ∀ i < n, m (a + i) = m' (b + i)) :
    getLittle m a n = getLittle m' b n := by
  induction n generalizing a b with
  | zero => rfl
  | succ n ih =>
    have head := same 0 (by omega)
    have tail : ∀ i < n, m (a + 1 + i) = m' (b + 1 + i) := by
      intro i within
      have shifted := same (i + 1) (by omega)
      have left : a + 1 + i = a + (i + 1) := by omega
      have right : b + 1 + i = b + (i + 1) := by omega
      rw [left, right]
      exact shifted
    simp only [getLittle, ih tail]
    rw [show m a = m' b from head]

theorem getLittle_lt (m : Memory) (a n : Nat) : getLittle m a n < 256 ^ n := by
  induction n generalizing a with
  | zero => exact Nat.one_pos
  | succ n ih =>
    have low := (m a).toNat_lt
    have rest := ih (a + 1)
    rw [getLittle, Nat.pow_succ]
    omega

theorem setLittle_outside {m : Memory} {a value n i : Nat} (outside : i < a ∨ a + n ≤ i) :
    setLittle m a value n i = m i := by
  induction n generalizing m a value with
  | zero => rfl
  | succ n ih =>
    rw [setLittle, ih (by omega)]
    exact Function.update_of_ne (by omega) _ _

theorem getLittle_setLittle (m : Memory) (a value n : Nat) :
    getLittle (setLittle m a value n) a n = value % 256 ^ n := by
  induction n generalizing m a value with
  | zero => simp [getLittle, Nat.mod_one]
  | succ n ih =>
    have first : setLittle m a value (n + 1) a = UInt8.ofNat value := by
      rw [setLittle, setLittle_outside (by omega)]
      exact Function.update_self _ _ _
    have byte : (UInt8.ofNat value).toNat = value % 256 := UInt8.toNat_ofNat'
    rw [getLittle, first, setLittle, ih, byte, Nat.pow_succ', Nat.mod_mul]

/-- A volume as it is mounted: sectors of 512 bytes, the copies of the table behind a boot
    sector and before the clusters, clusters that an int and 28 bits count. -/
structure Layout (fsbi : SbInfo) : Prop where
  bytes : fsbi.bytesPerCluster = 512 * fsbi.sectorPerCluster
  some_sectors : 0 < fsbi.sectorPerCluster
  bounded : fsbi.bytesPerCluster < 2 ^ 31
  some_table : 0 < fsbi.numFATs
  boot : 0 < fsbi.FAT1Firstsector
  tables : fsbi.FAT1Firstsector + fsbi.numFATs * fsbi.sectorPerFAT ≤ fsbi.dataFirstsector
  table_size : fsbi.sectorPerFAT ≤ 2 ^ 21
  no_wrap : fsbi.dataFirstsector + 2 ^ 28 * fsbi.sectorPerCluster < 2 ^ 64

def InTable (fsbi : SbInfo) (cluster : Nat) : Prop := cluster < 128 * fsbi.sectorPerFAT

def TableSector (fsbi : SbInfo) (sector : Nat) : Prop :=
  fsbi.FAT1Firstsector ≤ sector ∧
    sector < fsbi.FAT1Firstsector + fsbi.numFATs * fsbi.sectorPerFAT

theorem putSectors_one (w : World) (sector : Nat) (data : Memory) (x : Nat) :
    (w.putSectors sector 1 data).disk x = if x / 512 = sector then data (x % 512) else w.disk x := by
  simp only [World.putSectors, copy]
  by_cases here : x / 512 = sector
  · have inside : 512 * sector ≤ x ∧ x < 512 * sector + 512 * 1 := by omega
    have byte : 0 + (x - 512 * sector) = x % 512 := by omega
    rw [if_pos inside, if_pos here, byte]
  · have outside : ¬ (512 * sector ≤ x ∧ x < 512 * sector + 512 * 1) := by omega
    rw [if_neg outside, if_neg here]

/- All copies get the sector, and nothing else changes. -/
theorem run_writeFATCopies (fsbi : SbInfo) (e : Nat) (buf : Memory) (left i : Nat) (w : World) :
    ∃ w', run (writeFATCopies fsbi e buf left i) w = some ((), w') ∧ w'.memory = w.memory ∧
      w'.fresh = w.fresh ∧ ∀ x,
        ((∃ k, i ≤ k ∧ k < i + left ∧
          x / 512 = fsbi.FAT1Firstsector + fsbi.sectorPerFAT * k + e / 128) →
            w'.disk x = buf (x % 512)) ∧
        ((∀ k, i ≤ k → k < i + left →
          x / 512 ≠ fsbi.FAT1Firstsector + fsbi.sectorPerFAT * k + e / 128) →
            w'.disk x = w.disk x) := by
  induction left generalizing i w with
  | zero =>
    refine ⟨w, rfl, rfl, rfl, fun x => ⟨fun copy => ?_, fun _ => rfl⟩⟩
    obtain ⟨k, low, high, _⟩ := copy
    omega
  | succ left ih =>
    obtain ⟨w', ran, memory, fresh, disk⟩ := ih (i + 1)
      (w.putSectors (fsbi.FAT1Firstsector + fsbi.sectorPerFAT * i + e / 128) 1 buf)
    refine ⟨w', ran, memory, fresh, fun x => ⟨fun copy => ?_, fun none_ => ?_⟩⟩
    · obtain ⟨k, low, high, sector⟩ := copy
      by_cases later : ∃ k, i + 1 ≤ k ∧ k < i + 1 + left ∧
          x / 512 = fsbi.FAT1Firstsector + fsbi.sectorPerFAT * k + e / 128
      · exact (disk x).1 later
      · have first : k = i := by
          by_contra other
          exact later ⟨k, by omega, by omega, sector⟩
        have kept := (disk x).2 fun k low high at_ => later ⟨k, low, high, at_⟩
        rw [kept, putSectors_one, if_pos (by rw [sector, first])]
    · have kept := (disk x).2 fun k low high => none_ k (by omega) (by omega)
      rw [kept, putSectors_one, if_neg (none_ i (Nat.le_refl i) (by omega))]

theorem entryAt_setEntry (buf : Memory) (i j value : Nat) :
    entryAt (setEntry buf i value) j = if j = i then value % 2 ^ 32 else entryAt buf j := by
  have word : 256 ^ 4 = 2 ^ 32 := by decide
  by_cases same : j = i
  · rw [if_pos same, same, entryAt, setEntry, getLittle_setLittle, word]
  · rw [if_neg same]
    apply getLittle_congr
    intro k within
    exact setLittle_outside (by omega)

/- What a write of an entry changes: the entry, and nothing outside the tables. -/
structure Entered (fsbi : SbInfo) (w w' : World) (e value : Nat) : Prop where
  memory : w'.memory = w.memory
  fresh : w'.fresh = w.fresh
  outside : ∀ x, ¬ TableSector fsbi (x / 512) → w'.disk x = w.disk x
  entry : ∀ c, InTable fsbi c →
    fatEntry fsbi w' c = if c = e then value % 2 ^ 28 else fatEntry fsbi w c

theorem inTable_word {fsbi : SbInfo} (layout : Layout fsbi) {c : Nat} (inside : InTable fsbi c) :
    c % 2 ^ 32 = c := by
  have size := layout.table_size
  unfold InTable at inside
  omega

theorem copy_sector {fsbi : SbInfo} {e k : Nat} (inside : InTable fsbi e) (copy : k < fsbi.numFATs) :
    TableSector fsbi (fsbi.FAT1Firstsector + fsbi.sectorPerFAT * k + e / 128) := by
  unfold InTable at inside
  have sector : e / 128 < fsbi.sectorPerFAT := by omega
  have room : fsbi.sectorPerFAT * k + fsbi.sectorPerFAT ≤ fsbi.numFATs * fsbi.sectorPerFAT := by
    rw [← Nat.mul_succ, Nat.mul_comm]
    exact Nat.mul_le_mul_right _ copy
  exact ⟨by omega, by omega⟩

theorem run_writeFATEntry {fsbi : SbInfo} (layout : Layout fsbi) {e : Nat}
    (inside : InTable fsbi e) (value : Nat) (w : World) :
    ∃ w', run (DISK1FAT32WriteFATEntry fsbi e value) w = some ((), w') ∧
      Entered fsbi w w' e value := by
  have word := inTable_word layout inside
  have old_small := getLittle_lt (w.sectors (fsbi.FAT1Firstsector + e / 128)) (4 * (e % 128)) 4
  generalize made : setEntry (w.sectors (fsbi.FAT1Firstsector + e / 128)) (e % 128)
    (entryAt (w.sectors (fsbi.FAT1Firstsector + e / 128)) (e % 128) / 2 ^ 28 * 2 ^ 28 +
      value % 2 ^ 28) = buf
  obtain ⟨w', ran, memory, fresh, disk⟩ :=
    run_writeFATCopies fsbi e buf fsbi.numFATs 0 w
  have runs : run (DISK1FAT32WriteFATEntry fsbi e value) w = some ((), w') := by
    rw [← ran, ← made]
    simp only [DISK1FAT32WriteFATEntry, word]
    rfl
  have sector : e / 128 < fsbi.sectorPerFAT := by
    unfold InTable at inside
    omega
  refine ⟨w', runs, memory, fresh, fun x outside => ?_, fun c in_table => ?_⟩
  · apply (disk x).2
    intro k _ high at_
    rw [at_] at outside
    exact outside (copy_sector inside (by omega))
  · have c_word := inTable_word layout in_table
    have c_sector : c / 128 < fsbi.sectorPerFAT := by
      unfold InTable at in_table
      omega
    -- the sector of c in the first table, before and after
    have read : ∀ i < 512, w'.sectors (fsbi.FAT1Firstsector + c / 128) i =
        if c / 128 = e / 128 then buf i
        else w.sectors (fsbi.FAT1Firstsector + c / 128) i := by
      intro i within
      have byte : (512 * (fsbi.FAT1Firstsector + c / 128) + i) % 512 = i := by omega
      have place : (512 * (fsbi.FAT1Firstsector + c / 128) + i) / 512 =
          fsbi.FAT1Firstsector + c / 128 := by omega
      by_cases same : c / 128 = e / 128
      · rw [if_pos same, ← congrArg buf byte]
        apply (disk _).1
        exact ⟨0, by omega, by have := layout.some_table; omega, by rw [place, same]; simp⟩
      · rw [if_neg same]
        apply (disk _).2
        intro k _ _ at_
        rw [place] at at_
        rcases Nat.eq_zero_or_pos k with first | later
        · rw [first] at at_
          omega
        · have far := Nat.le_mul_of_pos_right fsbi.sectorPerFAT later
          omega
    have entry : entryAt (w'.sectors (fsbi.FAT1Firstsector + c / 128)) (c % 128) =
        entryAt (if c / 128 = e / 128 then buf
          else w.sectors (fsbi.FAT1Firstsector + c / 128)) (c % 128) := by
      apply getLittle_congr
      intro i within
      rw [read _ (by omega)]
      split
      · rfl
      · rfl
    simp only [fatEntry, c_word, entry]
    by_cases same : c / 128 = e / 128
    · rw [if_pos same, ← made, entryAt_setEntry, same]
      by_cases slot : c % 128 = e % 128
      · have equal : c = e := by omega
        rw [if_pos slot, if_pos equal]
        unfold entryAt
        omega
      · have differ : c ≠ e := fun equal => slot (by rw [equal])
        rw [if_neg slot, if_neg differ]
    · have differ : c ≠ e := fun equal => same (by rw [equal])
      rw [if_neg same, if_neg differ]

/- The free entry a search from the start of the table meets first. -/
structure FirstFree (fsbi : SbInfo) (w : World) (a : Nat) : Prop where
  in_table : InTable fsbi a
  free : fatEntry fsbi w a = 0
  first : ∀ c < a, fatEntry fsbi w c ≠ 0

theorem freeIn_some {buf : Memory} {j : Nat} (found : freeIn buf = some j) :
    j < 128 ∧ entryAt buf j % 2 ^ 28 = 0 ∧ ∀ k < j, entryAt buf k % 2 ^ 28 ≠ 0 := by
  rw [freeIn, List.find?_range_eq_some] at found
  obtain ⟨free, member, earlier⟩ := found
  refine ⟨List.mem_range.mp member, by simpa using free, fun k before => ?_⟩
  simpa using earlier k before

theorem freeIn_none {buf : Memory} (none_free : freeIn buf = none) :
    ∀ k < 128, entryAt buf k % 2 ^ 28 ≠ 0 := by
  intro k within
  have used := List.find?_eq_none.mp none_free k (List.mem_range.mpr within)
  simpa using used

theorem fatEntry_at {fsbi : SbInfo} (size : fsbi.sectorPerFAT ≤ 2 ^ 24) (w : World) {i j : Nat}
    (sector : i < fsbi.sectorPerFAT) (slot : j < 128) :
    fatEntry fsbi w (128 * i + j) = entryAt (w.sectors (fsbi.FAT1Firstsector + i)) j % 2 ^ 28 := by
  have word : (128 * i + j) % 2 ^ 32 = 128 * i + j := by omega
  have quot : (128 * i + j) / 128 = i := by omega
  have rest : (128 * i + j) % 128 = j := by omega
  simp only [fatEntry, word, quot, rest]

/- Behind sectors without one, the first free entry of a sector is the first of the table. -/
theorem found_first {fsbi : SbInfo} (size : fsbi.sectorPerFAT ≤ 2 ^ 24) {w : World} {i j : Nat}
    (sector : i < fsbi.sectorPerFAT) (earlier : ∀ c < 128 * i, fatEntry fsbi w c ≠ 0)
    (found : freeIn (w.sectors (fsbi.FAT1Firstsector + i)) = some j) :
    FirstFree fsbi w (128 * i + j) := by
  obtain ⟨slot, free, before⟩ := freeIn_some found
  have at_ := fatEntry_at size w sector slot
  refine ⟨?_, by rw [at_]; exact free, fun c smaller => ?_⟩
  · unfold InTable
    omega
  · by_cases here : 128 * i ≤ c
    · have at_c := fatEntry_at size w (j := c - 128 * i) sector (by omega)
      have same : 128 * i + (c - 128 * i) = c := by omega
      rw [same] at at_c
      rw [at_c]
      exact before _ (by omega)
    · exact earlier c (by omega)

theorem none_found {fsbi : SbInfo} (size : fsbi.sectorPerFAT ≤ 2 ^ 24) {w : World} {i : Nat}
    (sector : i < fsbi.sectorPerFAT) (earlier : ∀ c < 128 * i, fatEntry fsbi w c ≠ 0)
    (none_free : freeIn (w.sectors (fsbi.FAT1Firstsector + i)) = none) :
    ∀ c < 128 * (i + 1), fatEntry fsbi w c ≠ 0 := by
  intro c smaller
  by_cases here : 128 * i ≤ c
  · have at_c := fatEntry_at size w (j := c - 128 * i) sector (by omega)
    have same : 128 * i + (c - 128 * i) = c := by omega
    rw [same] at at_c
    rw [at_c]
    exact freeIn_none none_free _ (by omega)
  · exact earlier c (by omega)

theorem run_findAvailable {fsbi : SbInfo} (size : fsbi.sectorPerFAT ≤ 2 ^ 24) (w : World) {left i : Nat}
    (sectors : i + left = fsbi.sectorPerFAT) (earlier : ∀ c < 128 * i, fatEntry fsbi w c ≠ 0) :
    ∃ a, run (findAvailable fsbi left i) w = some (a, w) ∧
      (FirstFree fsbi w a ∨ (a = 0 ∧ ∀ c, InTable fsbi c → fatEntry fsbi w c ≠ 0)) := by
  induction left generalizing i with
  | zero =>
    refine ⟨0, rfl, Or.inr ⟨rfl, fun c inside => earlier c ?_⟩⟩
    unfold InTable at inside
    omega
  | succ left ih =>
    rw [findAvailable]
    simp only [run_bind, readSectors, run, Option.bind_some, received, Option.getD_some]
    cases found : freeIn (w.sectors (fsbi.FAT1Firstsector + i)) with
    | some j =>
      have place : i * 128 + j = 128 * i + j := by omega
      exact ⟨128 * i + j, by rw [← place]; rfl, Or.inl (found_first size (by omega) earlier found)⟩
    | none => exact ih (by omega) (none_found size (by omega) earlier found)

/-- FAT32_find_available_cluster gives the first free entry, and 0 when there is none. -/
theorem run_find {fsbi : SbInfo} (layout : Layout fsbi) (w : World) :
    ∃ a, run (FAT32FindAvailableCluster fsbi) w = some (a, w) ∧
      (FirstFree fsbi w a ∨ (a = 0 ∧ ∀ c, InTable fsbi c → fatEntry fsbi w c ≠ 0)) :=
  run_findAvailable (Nat.le_trans layout.table_size (by decide)) w (by omega) fun c none_ => by omega

def clusterAt (fsbi : SbInfo) (w : World) (cluster : Nat) : Nat → Nat
  | 0 => cluster
  | n + 1 => clusterAt fsbi w (fatEntry fsbi w cluster) n

theorem run_walkChain (fsbi : SbInfo) (w : World) (n cluster : Nat) :
    run (walkChain fsbi n cluster) w = some (clusterAt fsbi w cluster n, w) := by
  induction n generalizing cluster with
  | zero => rfl
  | succ n ih => exact ih (fatEntry fsbi w cluster)

theorem clusterAt_succ (fsbi : SbInfo) (w : World) (cluster n : Nat) :
    clusterAt fsbi w cluster (n + 1) = fatEntry fsbi w (clusterAt fsbi w cluster n) := by
  induction n generalizing cluster with
  | zero => rfl
  | succ n ih => exact ih (fatEntry fsbi w cluster)

theorem clusterAt_add (fsbi : SbInfo) (w : World) (cluster n k : Nat) :
    clusterAt fsbi w cluster (n + k) = clusterAt fsbi w (clusterAt fsbi w cluster n) k := by
  induction n generalizing cluster with
  | zero => rw [Nat.zero_add]; rfl
  | succ n ih =>
    rw [Nat.add_right_comm]
    exact ih (fatEntry fsbi w cluster)

theorem fatEntry_lt (fsbi : SbInfo) (w : World) (cluster : Nat) :
    fatEntry fsbi w cluster < 2 ^ 28 := Nat.mod_lt _ (by decide)

end Fat32

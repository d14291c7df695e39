import Q2os.FileEntry
import Q2os.PageAllocator

/- The table of E820 entries between loader.asm, which stores it at 0x7E00, and init_memory,
   which reads it there. -/
namespace MemoryMap
open ByteMemory PageAllocator Fat32

/- OffsetTmpOfKernelFile and MemoryStructBufferAddr are the same address. -/
def offsetTmpOfKernelFile : Nat := 0x7E00
def memoryStructBufferAddr : Nat := 0x7E00
def offsetOfKernelFile : Nat := 0x100000

/- One round of Label_Go_On_Loading_File: the sector of the kernel, and the two sectors of the
   FAT that Func_GetFATEntry reads for the next one. -/
structure Cluster where
  sector : Memory
  fat : Memory

def goOnLoadingFile : Memory → Nat → List Cluster → Memory
  | m, _, [] => m
  | m, count, c :: rest =>
    let m := copy c.sector 0 m offsetTmpOfKernelFile 512
    let m := copy m offsetTmpOfKernelFile m (offsetOfKernelFile + count) 512
    let m := copy c.fat 0 m 0x8000 1024
    goOnLoadingFile m (count + 512) rest

def storeEntry (m : Memory) (di : Nat) (e : E820) : Memory :=
  setLittle (setLittle (setLittle m di e.address 8) (di + 8) e.length 8) (di + 16) e.type 4

def getMemStruct : Memory → Nat → List E820 → Memory
  | m, _, [] => m
  | m, di, e :: rest => getMemStruct (storeEntry m di e) (di + 20) rest

/- What int 10h answers with: the VBE block and one block for each mode. -/
structure Vbe where
  info : Memory
  size : Nat
  modes : List Memory

def getModeInfo : Memory → Nat → List Memory → Memory
  | m, _, [] => m
  | m, edi, mode :: rest => getModeInfo (copy mode 0 m edi 256) (edi + 0x100) rest

def getSVGAInfo (m : Memory) (vbe : Vbe) : Memory :=
  getModeInfo (copy vbe.info 0 m 0x8000 vbe.size) 0x8200 vbe.modes

/- The memory when the loader has stored the table, and when it jumps to the kernel. -/
def stored (m : Memory) (kernel : List Cluster) (entries : List E820) : Memory :=
  getMemStruct (goOnLoadingFile m 0 kernel) memoryStructBufferAddr entries

def loader (m : Memory) (kernel : List Cluster) (entries : List E820) (vbe : Vbe) : Memory :=
  getSVGAInfo (stored m kernel entries) vbe

def tableEntry (m : Memory) (i : Nat) : E820 where
  address := getLittle m (memoryStructBufferAddr + 20 * i) 8
  length := getLittle m (memoryStructBufferAddr + 20 * i + 8) 8
  type := getLittle m (memoryStructBufferAddr + 20 * i + 16) 4

structure Typed (e : E820) : Prop where
  address : e.address < 256 ^ 8
  length : e.length < 256 ^ 8
  type : e.type < 256 ^ 4

theorem storeEntry_outside {m : Memory} {di x : Nat} (e : E820)
    (outside : x < di ∨ di + 20 ≤ x) : storeEntry m di e x = m x := by
  unfold storeEntry
  rw [setLittle_outside (by omega), setLittle_outside (by omega), setLittle_outside (by omega)]

theorem getMemStruct_outside {m : Memory} {di x : Nat} {entries : List E820}
    (outside : x < di ∨ di + 20 * entries.length ≤ x) : getMemStruct m di entries x = m x := by
  induction entries generalizing m di with
  | nil => rfl
  | cons e rest ih =>
    rw [List.length_cons] at outside
    rw [getMemStruct, ih (by omega)]
    exact storeEntry_outside e (by omega)

theorem setLittle_inside {m m' : Memory} {a n x value : Nat} (low : a ≤ x) (high : x < a + n) :
    setLittle m a value n x = setLittle m' a value n x := by
  induction n generalizing m m' a value with
  | zero => omega
  | succ n ih =>
    rw [setLittle, setLittle]
    by_cases first : x = a
    · rw [first, setLittle_outside (by omega), setLittle_outside (by omega),
        Function.update_self, Function.update_self]
    · exact ih (by omega) (by omega)

theorem storeEntry_inside {m m' : Memory} {di x : Nat} (e : E820) (low : di ≤ x)
    (high : x < di + 20) : storeEntry m di e x = storeEntry m' di e x := by
  unfold storeEntry
  by_cases last : di + 16 ≤ x
  · exact setLittle_inside last (by omega)
  · have off_type : ∀ m, setLittle m (di + 16) e.type 4 x = m x := fun m =>
      setLittle_outside (by omega)
    rw [off_type, off_type]
    by_cases second : di + 8 ≤ x
    · exact setLittle_inside second (by omega)
    · have off_length : ∀ m, setLittle m (di + 8) e.length 8 x = m x := fun m =>
        setLittle_outside (by omega)
      rw [off_length, off_length]
      exact setLittle_inside low (by omega)

theorem getMemStruct_inside {m m' : Memory} {di x : Nat} {entries : List E820} (low : di ≤ x)
    (high : x < di + 20 * entries.length) :
    getMemStruct m di entries x = getMemStruct m' di entries x := by
  induction entries generalizing m m' di with
  | nil =>
    rw [List.length_nil] at high
    omega
  | cons e rest ih =>
    rw [List.length_cons] at high
    rw [getMemStruct, getMemStruct]
    by_cases first : x < di + 20
    · rw [getMemStruct_outside (Or.inl first), getMemStruct_outside (Or.inl first)]
      exact storeEntry_inside e low first
    · exact ih (by omega) (by omega)

theorem storeEntry_read {m : Memory} {di : Nat} {e : E820} (typed : Typed e) :
    getLittle (storeEntry m di e) di 8 = e.address ∧
      getLittle (storeEntry m di e) (di + 8) 8 = e.length ∧
      getLittle (storeEntry m di e) (di + 16) 4 = e.type := by
  have keep : ∀ (m : Memory) (a n b k value : Nat), a + n ≤ b →
      getLittle (setLittle m b value k) a n = getLittle m a n := by
    intro m a n b k value before
    apply getLittle_congr
    intro i within
    exact setLittle_outside (by omega)
  unfold storeEntry
  refine ⟨?_, ?_, ?_⟩
  · rw [keep _ _ _ _ _ _ (by omega), keep _ _ _ _ _ _ (by omega), getLittle_setLittle,
      Nat.mod_eq_of_lt typed.address]
  · rw [keep _ _ _ _ _ _ (by omega), getLittle_setLittle, Nat.mod_eq_of_lt typed.length]
  · rw [getLittle_setLittle, Nat.mod_eq_of_lt typed.type]

theorem getMemStruct_read {m : Memory} {di i : Nat} {entries : List E820} {e : E820}
    (typed : ∀ e ∈ entries, Typed e) (listed : entries[i]? = some e) :
    getLittle (getMemStruct m di entries) (di + 20 * i) 8 = e.address ∧
      getLittle (getMemStruct m di entries) (di + 20 * i + 8) 8 = e.length ∧
      getLittle (getMemStruct m di entries) (di + 20 * i + 16) 4 = e.type := by
  induction entries generalizing m di i with
  | nil => cases listed
  | cons first rest ih =>
    rw [getMemStruct]
    cases i with
    | zero =>
      have same : first = e := Option.some.inj listed
      rw [← same]
      have read := @storeEntry_read m di first (typed first (List.mem_cons_self ..))
      have keep : ∀ a n, di ≤ a → a + n ≤ di + 20 →
          getLittle (getMemStruct (storeEntry m di first) (di + 20) rest) a n =
            getLittle (storeEntry m di first) a n := by
        intro a n low high
        apply getLittle_congr
        intro k within
        exact getMemStruct_outside (by omega)
      simp only [Nat.mul_zero, Nat.add_zero]
      rw [keep di 8 (by omega) (by omega), keep (di + 8) 8 (by omega) (by omega),
        keep (di + 16) 4 (by omega) (by omega)]
      exact read
    | succ i =>
      have place : di + 20 * (i + 1) = di + 20 + 20 * i := by omega
      rw [place]
      exact ih (fun e member => typed e (List.mem_cons_of_mem _ member)) listed

/-- What the loader stored is what is read back from there. -/
theorem tableEntry_stored {m : Memory} {kernel : List Cluster} {entries : List E820} {i : Nat}
    {e : E820} (typed : ∀ e ∈ entries, Typed e) (listed : entries[i]? = some e) :
    tableEntry (stored m kernel entries) i = e := by
  obtain ⟨address, length, type⟩ := @getMemStruct_read (goOnLoadingFile m 0 kernel)
    memoryStructBufferAddr i entries e typed listed
  rw [tableEntry, stored, address, length, type]

theorem getLittle_inj {m m' : Memory} {a n : Nat} (same : getLittle m a n = getLittle m' a n) :
    ∀ i < n, m (a + i) = m' (a + i) := by
  induction n generalizing a with
  | zero =>
    intro i within
    omega
  | succ n ih =>
    rw [getLittle, getLittle] at same
    have low := (m a).toNat_lt
    have low' := (m' a).toNat_lt
    intro i within
    cases i with
    | zero =>
      apply UInt8.toNat_inj.mp
      rw [Nat.add_zero]
      omega
    | succ i =>
      have rest := ih (a := a + 1) (by omega) i (by omega)
      have place : a + (i + 1) = a + 1 + i := by omega
      rw [place]
      exact rest

theorem tableEntry_congr {m m' : Memory} {i : Nat}
    (same : ∀ x, memoryStructBufferAddr + 20 * i ≤ x → x < memoryStructBufferAddr + 20 * i + 20 →
      m x = m' x) : tableEntry m i = tableEntry m' i := by
  have field : ∀ a n, memoryStructBufferAddr + 20 * i ≤ a →
      a + n ≤ memoryStructBufferAddr + 20 * i + 20 → getLittle m a n = getLittle m' a n := by
    intro a n low high
    apply getLittle_congr
    intro k within
    exact same _ (by omega) (by omega)
  unfold tableEntry
  rw [field _ 8 (by omega) (by omega), field _ 8 (by omega) (by omega),
    field _ 4 (by omega) (by omega)]

theorem tableEntry_bytes {m m' : Memory} {i : Nat} (same : tableEntry m i = tableEntry m' i) :
    ∀ k < 20, m (memoryStructBufferAddr + 20 * i + k) = m' (memoryStructBufferAddr + 20 * i + k) := by
  simp only [tableEntry, E820.mk.injEq] at same
  obtain ⟨address, length, type⟩ := same
  intro k within
  by_cases first : k < 8
  · exact getLittle_inj address k first
  · by_cases second : k < 16
    · have byte := getLittle_inj length (k - 8) (by omega)
      have place : memoryStructBufferAddr + 20 * i + 8 + (k - 8) =
          memoryStructBufferAddr + 20 * i + k := by omega
      rw [place] at byte
      exact byte
    · have byte := getLittle_inj type (k - 16) (by omega)
      have place : memoryStructBufferAddr + 20 * i + 16 + (k - 16) =
          memoryStructBufferAddr + 20 * i + k := by omega
      rw [place] at byte
      exact byte

/- Where init_memory ends the table: behind an entry is one that ends it, or there are 32. -/
theorem lastEntry_iff (p : Nat → E820) {left i n : Nat} (behind : i < n) (most : n ≤ i + left + 1) :
    lastEntry p left i + 1 = n ↔
      (∀ j, i < j → j < n → ¬ endsTable (p j)) ∧ (n = i + left + 1 ∨ endsTable (p n)) := by
  induction left generalizing i with
  | zero =>
    rw [lastEntry]
    constructor
    · intro same
      exact ⟨fun j low high => by omega, Or.inl (by omega)⟩
    · intro _
      omega
  | succ left ih =>
    rw [lastEntry]
    by_cases ends : endsTable (p (i + 1))
    · rw [if_pos ends]
      constructor
      · intro same
        rw [← same]
        exact ⟨fun j low high => by omega, Or.inr ends⟩
      · intro table
        by_contra other
        exact table.1 (i + 1) (by omega) (by omega) ends
    · rw [if_neg ends]
      by_cases last : n = i + 1
      · constructor
        · intro same
          have later : ∀ left i, i ≤ lastEntry p left i := by
            intro left
            induction left with
            | zero => exact fun i => Nat.le_refl i
            | succ left ih =>
              intro i
              rw [lastEntry]
              split
              · exact Nat.le_refl i
              · exact Nat.le_trans (Nat.le_succ i) (ih (i + 1))
          have far := later left (i + 1)
          omega
        · intro table
          rcases table.2 with full | ends_here
          · omega
          · rw [last] at ends_here
            exact absurd ends_here ends
      · rw [ih (by omega) (by omega)]
        constructor
        · intro table
          refine ⟨fun j low high => ?_, table.2.imp (fun full => by omega) id⟩
          by_cases next : j = i + 1
          · rw [next]
            exact ends
          · exact table.1 j (by omega) high
        · intro table
          exact ⟨fun j low high => table.1 j (by omega) high,
            table.2.imp (fun full => by omega) id⟩

def mapOf (g : Gmd) : (Nat → E820) × Nat := (g.e820, g.e820Length)

theorem pageInit_map (g : Gmd) (i : Nat) (flags : BitVec 64) :
    mapOf (pageInit g i flags) = mapOf g := by
  unfold pageInit updateZone
  dsimp only
  split
  · split
    · rfl
    · rfl
  · rfl

theorem initPages_map (g : Gmd) (zone start j : Nat) : mapOf (initPages g zone start j) = mapOf g := by
  induction j with
  | zero => rfl
  | succ j ih => exact ih

theorem initZones_map (g : Gmd) (p : Nat → E820) (n : Nat) : mapOf (initZones g p n) = mapOf g := by
  induction n with
  | zero => rfl
  | succ n ih =>
    rw [← ih, initZones, initZone]
    split
    · exact initPages_map _ _ _ _
    · rfl

theorem initBootPages_map (g : Gmd) (j : Nat) : mapOf (initBootPages g j) = mapOf g := by
  induction j with
  | zero => rfl
  | succ j ih =>
    rw [← ih, ← pageInit_map (initBootPages g j) (j + 1) (pgPTableMaped ||| pgKernelInit ||| pgKernel),
      initBootPages]
    unfold updateZone
    split
    · rfl
    · rfl

theorem initMemory_map (b : Machine) : mapOf (initMemory b) = (b.table, lastEntry b.table 31 0) := by
  unfold initMemory
  dsimp only
  rw [initBootPages_map]
  exact initZones_map _ _ _

/-- The kernel started by the loader, with what lies in memory from bits_map on. -/
def started (m : Memory) (kernel : List Cluster) (entries : List E820) (vbe : Vbe) (startBrk : Nat)
    (memory : Bitmap.Words) : Gmd :=
  initMemory ⟨tableEntry (loader m kernel entries vbe), startBrk, memory⟩

theorem mapOf_inj {g : Gmd} {table : Nat → E820} {n : Nat} (same : mapOf g = (table, n)) :
    g.e820 = table ∧ g.e820Length = n :=
  Prod.mk.inj same

theorem started_map (m : Memory) (kernel : List Cluster) (entries : List E820) (vbe : Vbe)
    (startBrk : Nat) (memory : Bitmap.Words) :
    (started m kernel entries vbe startBrk memory).e820 =
        tableEntry (loader m kernel entries vbe) ∧
      (started m kernel entries vbe startBrk memory).e820Length =
        lastEntry (tableEntry (loader m kernel entries vbe)) 31 0 := by
  unfold started
  apply mapOf_inj
  rw [initMemory_map]

/-- The table has the entries of the loader in their order and no others. -/
structure Handed (g : Gmd) (entries : List E820) : Prop where
  number : g.e820Length + 1 = entries.length
  same : ∀ i e, entries[i]? = some e → g.e820 i = e

/-- The VBE block that the loader reads behind the table changes no byte of an entry. -/
def Spared (entries : List E820) (vbe : Vbe) : Prop :=
  ∀ x, 0x8000 ≤ x → x < 0x8000 + vbe.size → x < memoryStructBufferAddr + 20 * entries.length →
    vbe.info (x - 0x8000) = getMemStruct (fun _ => 0) memoryStructBufferAddr entries x

/-- What the kernel file and the VBE block leave where entry i is read. -/
def leftOver (m : Memory) (kernel : List Cluster) (vbe : Vbe) (i : Nat) : E820 :=
  tableEntry (getSVGAInfo (goOnLoadingFile m 0 kernel) vbe) i

theorem getModeInfo_outside {m : Memory} {edi x : Nat} {modes : List Memory} (before : x < edi) :
    getModeInfo m edi modes x = m x := by
  induction modes generalizing m edi with
  | nil => rfl
  | cons mode rest ih =>
    rw [getModeInfo, ih (by omega)]
    exact copy_outside _ _ _ _ _ _ (Or.inl before)

theorem getSVGAInfo_byte {m : Memory} {vbe : Vbe} {x : Nat} (below : x < 0x8200) :
    getSVGAInfo m vbe x = copy vbe.info 0 m 0x8000 vbe.size x :=
  getModeInfo_outside below

theorem spared_iff {m : Memory} {kernel : List Cluster} {entries : List E820} {vbe : Vbe}
    (typed : ∀ e ∈ entries, Typed e) (most : entries.length ≤ 32) :
    (∀ i e, entries[i]? = some e → tableEntry (loader m kernel entries vbe) i = e) ↔
      Spared entries vbe := by
  have listed : ∀ i < entries.length, ∃ e, entries[i]? = some e := fun i less =>
    ⟨entries[i], List.getElem?_eq_getElem less⟩
  constructor
  · intro same x low high inside
    unfold memoryStructBufferAddr at inside
    obtain ⟨e, entry⟩ := listed ((x - 0x7E00) / 20) (by omega)
    have first := same _ _ entry
    rw [← @tableEntry_stored m kernel entries _ _ typed entry] at first
    have byte := tableEntry_bytes first ((x - 0x7E00) % 20) (Nat.mod_lt _ (by decide))
    have place : memoryStructBufferAddr + 20 * ((x - 0x7E00) / 20) + (x - 0x7E00) % 20 = x := by
      unfold memoryStructBufferAddr
      omega
    rw [place, loader, getSVGAInfo_byte (by omega), copy, if_pos ⟨low, high⟩, Nat.zero_add,
      stored] at byte
    rw [byte]
    exact getMemStruct_inside (by unfold memoryStructBufferAddr; omega)
      (by unfold memoryStructBufferAddr; omega)
  · intro spared i e entry
    rw [← @tableEntry_stored m kernel entries _ _ typed entry]
    have less : i < entries.length := (List.getElem?_eq_some_iff.mp entry).1
    apply tableEntry_congr
    intro x low high
    unfold memoryStructBufferAddr at low high
    rw [loader, getSVGAInfo_byte (by omega), copy]
    split
    · rename_i inside
      rw [Nat.zero_add, spared x inside.1 inside.2 (by unfold memoryStructBufferAddr; omega), stored]
      exact getMemStruct_inside (by unfold memoryStructBufferAddr; omega)
        (by unfold memoryStructBufferAddr; omega)
    · rfl

/- The entry behind the last is what the kernel file and the VBE block left there. -/
theorem behind_left {m : Memory} {kernel : List Cluster} {entries : List E820} {vbe : Vbe}
    (most : entries.length ≤ 32) :
    tableEntry (loader m kernel entries vbe) entries.length =
      leftOver m kernel vbe entries.length := by
  unfold leftOver
  apply tableEntry_congr
  intro x low high
  unfold memoryStructBufferAddr at low high
  have untouched : stored m kernel entries x = goOnLoadingFile m 0 kernel x :=
    getMemStruct_outside (Or.inr (by unfold memoryStructBufferAddr; omega))
  rw [loader, getSVGAInfo_byte (by omega), getSVGAInfo_byte (by omega), copy, copy, untouched]

/-- The kernel has exactly the entries of the loader if and only if the VBE block leaves them
    alone, none but the first ends a table and, with fewer than 32, the bytes left behind the
    last one do. -/
theorem handed_iff (m : Memory) (kernel : List Cluster) (entries : List E820) (vbe : Vbe)
    (startBrk : Nat) (memory : Bitmap.Words) (typed : ∀ e ∈ entries, Typed e)
    (some_entry : 1 ≤ entries.length) (most : entries.length ≤ 32) :
    Handed (started m kernel entries vbe startBrk memory) entries ↔
      Spared entries vbe ∧
      (∀ i e, 0 < i → entries[i]? = some e → ¬ endsTable e) ∧
      (entries.length = 32 ∨
        endsTable (leftOver m kernel vbe entries.length)) := by
  have number := @lastEntry_iff (tableEntry (loader m kernel entries vbe)) 31 0 entries.length
    some_entry (by omega)
  obtain ⟨table, length⟩ := started_map m kernel entries vbe startBrk memory
  rw [behind_left most, ← length] at number
  have full : entries.length = 0 + 31 + 1 ↔ entries.length = 32 := Iff.rfl
  rw [full] at number
  rw [← spared_iff typed most]
  constructor
  · intro handed
    have same : ∀ i e, entries[i]? = some e → tableEntry (loader m kernel entries vbe) i = e := by
      intro i e entry
      rw [← table]
      exact handed.same i e entry
    obtain ⟨inside, behind⟩ := number.mp handed.number
    refine ⟨same, fun i e positive entry => ?_, behind⟩
    have less : i < entries.length := (List.getElem?_eq_some_iff.mp entry).1
    rw [← same i e entry]
    exact inside i positive less
  · intro condition
    obtain ⟨same, inside, behind⟩ := condition
    refine ⟨number.mpr ⟨fun j positive less => ?_, behind⟩, fun i e entry => ?_⟩
    · have entry := List.getElem?_eq_getElem less
      rw [same j _ entry]
      exact inside j _ positive entry
    · rw [table]
      exact same i e entry

/- The map of a machine with 128MB, a kernel of two sectors, of which code is left behind the table, and
   a VBE block with a mode. -/
def machineMap : List E820 :=
  [⟨0, 0x9fc00, 1⟩, ⟨0x9fc00, 0x400, 2⟩, ⟨0xf0000, 0x10000, 2⟩, ⟨0x100000, 0x7ee0000, 1⟩,
    ⟨0x7fe0000, 0x20000, 2⟩, ⟨0xfffc0000, 0x40000, 2⟩]

def codeSectors : List Cluster :=
  [⟨fun _ => 0xcc, fun _ => 0xff⟩, ⟨fun _ => 0x90, fun _ => 0xff⟩]

def oneMode : Vbe := ⟨fun _ => 0x56, 512, [fun _ => 0x11]⟩

theorem typed_machine_map : ∀ e ∈ machineMap, Typed e := by
  have typed : ∀ e ∈ machineMap, e.address < 256 ^ 8 ∧ e.length < 256 ^ 8 ∧ e.type < 256 ^ 4 := by
    decide +kernel
  exact fun e member => ⟨(typed e member).1, (typed e member).2.1, (typed e member).2.2⟩

theorem handed_machine_map :
    Handed (started (fun _ => 0) codeSectors machineMap oneMode 0x180000 (fun _ => 0)) machineMap := by
  refine (handed_iff (fun _ => 0) codeSectors machineMap oneMode 0x180000 (fun _ => 0)
    typed_machine_map (by decide) (by decide)).mpr ⟨?_, ?_, Or.inr (by decide +kernel)⟩
  · intro x low _ high
    have length : machineMap.length = 6 := rfl
    rw [memoryStructBufferAddr, length] at high
    omega
  · intro i e _ listed
    have memory : ∀ e ∈ machineMap, ¬ endsTable e := by decide +kernel
    exact memory e (List.mem_of_getElem? listed)

def onlyRam : List E820 := [⟨0, 0x8000000, 1⟩]
def lastSector : Memory := fun i => if i = 28 ∨ i = 36 then 1 else 0
def looksAlike : List Cluster := [⟨lastSector, fun _ => 0⟩]
def noVbe : Vbe := ⟨fun _ => 0, 512, []⟩

theorem typed_onlyRam : ∀ e ∈ onlyRam, Typed e := by
  intro e member
  cases List.mem_singleton.mp member
  exact ⟨by decide +kernel, by decide +kernel, by decide +kernel⟩

theorem entry_invented :
    (∀ e ∈ onlyRam, Typed e) ∧
      ¬ Handed (started (fun _ => 0) looksAlike onlyRam noVbe 0x180000 (fun _ => 0)) onlyRam := by
  refine ⟨typed_onlyRam, fun handed => ?_⟩
  obtain ⟨_, length⟩ := started_map (fun _ => 0) looksAlike onlyRam noVbe 0x180000 (fun _ => 0)
  have number := handed.number
  rw [length] at number
  have behind := ((lastEntry_iff _ (by decide) (by decide)).mp number).2
  have counted : endsTable (tableEntry (loader (fun _ => 0) looksAlike onlyRam noVbe) 1) :=
    behind.resolve_left (by decide)
  exact absurd counted (by decide +kernel)

end MemoryMap

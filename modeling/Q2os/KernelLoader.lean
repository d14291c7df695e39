import Q2os.Fat12
import Q2os.StateRuns

/- The loader's search for KERNEL.BIN in the root directory of the floppy, and its copy of the
   clusters to memory from 1 MB on. -/
namespace KernelLoader
open ByteMemory StateRuns Fat12
open Fat32 (getLittle getLittle_congr getLittle_lt)

/-- int 13h with ah = 2, for a floppy of 80 tracks with two heads and 18 sectors each: none where the
    carry flag comes back set. -/
structure Floppy (image : Memory) where
  int13h (track head sector count : Nat) : Option Memory
  reads {track head sector count : Nat} (on_disk : track < 80 ∧ head < 2) (first : 1 ≤ sector)
    (last : sector + count ≤ 19) : ∃ data, int13h track head sector count = some data ∧
      ∀ i < 512 * count, data i = image (512 * (18 * (2 * track + head) + (sector - 1)) + i)
  no_track {track : Nat} (head sector count : Nat) (beyond : 80 ≤ track) : int13h track head sector count = none

structure Loader where
  memory : Memory
  offsetOfKernelFileCount : Nat

abbrev Boot (α : Type) := StateT Loader Option α

def rootDirSectors : Nat := 14
def sectorNumOfRootDirStart : Nat := 19
def sectorNumOfFAT1Start : Nat := 1
def sectorBalance : Nat := 17
def bpbSecPerTrk : Nat := 18
def bpbBytesPerSec : Nat := 512

def offsetOfKernelFile : Nat := 0x100000
def offsetTmpOfKernelFile : Nat := 0x7e00
def sectorBuffer : Nat := 0x8000

def kernelFileName : List UInt8 := [0x4b, 0x45, 0x52, 0x4e, 0x45, 0x4c, 0x20, 0x20, 0x42, 0x49, 0x4e]

section code
variable {image : Memory} (floppy : Floppy image)

/- A sector that cannot be read is tried again and again. A quotient of div has to fit al. -/
def funcReadOneSector (ax cl bx : Nat) : Boot Unit := fun s =>
  if 2 ^ 8 ≤ ax / bpbSecPerTrk then none
  else
    match floppy.int13h (ax / bpbSecPerTrk / 2) (ax / bpbSecPerTrk % 2) (ax % bpbSecPerTrk + 1) cl with
    | none => none
    | some data => some ((), { s with memory := copy data 0 s.memory bx (512 * cl) })

def funcGetFATEntry (ax : Nat) : Boot Nat := do
  let product := ax * 3
  if 2 ^ 16 ≤ product / 2 then failure
  else
    let odd := product % 2
    let offset := product / 2
    funcReadOneSector floppy (offset / bpbBytesPerSec + sectorNumOfFAT1Start) 2 sectorBuffer
    let s ← get
    let ax := getLittle s.memory (sectorBuffer + offset % bpbBytesPerSec) 2
    return (if odd = 1 then ax >>> 4 else ax) &&& 0xfff

def cmpFileName (memory : Memory) : List UInt8 → Nat → Bool × Nat
  | [], di => (true, di)
  | c :: name, di => if c = memory di then cmpFileName memory name (di + 1) else (false, di)

/- From Label_Search_For_LoaderBin on, with dx. -/
def searchSector (memory : Memory) : Nat → Nat → Option Nat
  | 0, _ => none
  | dx + 1, di =>
    let compared := cmpFileName memory kernelFileName di
    if compared.1 then some compared.2 else searchSector memory dx ((compared.2 &&& 0xffe0) + 0x20)

/- From Lable_Search_In_Root_Dir_Begin on, with RootDirSizeForLoop and SectorNo. -/
def searchInRootDir : Nat → Nat → Boot Nat
  | 0, _ => failure
  | size + 1, sectorNo => do
    funcReadOneSector floppy sectorNo 1 sectorBuffer
    let s ← get
    match searchSector s.memory 0x10 sectorBuffer with
    | some di => return di
    | none => searchInRootDir size (sectorNo + 1)

/- From Label_Mov_Kernel on, with cx, esi and edi. -/
def movKernel : Nat → Nat → Nat → Boot Nat
  | 0, _, edi => return edi
  | cx + 1, esi, edi => do
    modify fun s => { s with memory := Function.update s.memory edi (s.memory esi) }
    movKernel cx ((esi + 1) % 2 ^ 32) ((edi + 1) % 2 ^ 32)

/- Label_Go_On_Loading_File down to the next entry. -/
def loadCluster (cluster : Nat) : Boot Nat := do
  let ax := (cluster + rootDirSectors + sectorBalance) % 2 ^ 16
  funcReadOneSector floppy ax 1 offsetTmpOfKernelFile
  let s ← get
  let edi ← movKernel 0x200 offsetTmpOfKernelFile s.offsetOfKernelFileCount
  modify fun s => { s with offsetOfKernelFileCount := edi }
  funcGetFATEntry floppy cluster

def goOnLoadingFile : Nat → Nat → Boot Unit
  | 0, _ => failure
  | rounds + 1, cluster => do
    let ax ← loadCluster floppy cluster
    if ax = 0xfff then return ()
    else goOnLoadingFile rounds ax

def loadKernel (rounds : Nat) : Boot Unit := do
  let di ← searchInRootDir floppy rootDirSectors sectorNumOfRootDirStart
  let s ← get
  goOnLoadingFile floppy rounds (getLittle s.memory ((di &&& 0xffe0) + 0x1a) 2)

end code

def Named (image : Memory) (e : Nat) : Prop := slice image (rootStart + 32 * e) 11 = kernelFileName

/-- The first entry for KERNEL.BIN. -/
structure KernelEntry (image : Memory) (e : Nat) : Prop where
  inside : e < rootEntries
  named : Named image e
  first : ∀ e' < e, ¬ Named image e'

def firstCluster (image : Memory) (e : Nat) : Nat := getLittle image (rootStart + 32 * e + 0x1a) 2

/- The clusters are in memory one behind the other; only the two buffers were written besides. -/
structure Loaded (image : Memory) (first n : Nat) (s s' : Loader) : Prop where
  kernel : ∀ k < n, ∀ i < 512, s'.memory (offsetOfKernelFile + 512 * k + i) =
    image (512 * clusterSector ((tableEntry image)^[k] first) + i)
  count : s'.offsetOfKernelFileCount = offsetOfKernelFile + 512 * n
  others : ∀ a, a < 0x7e00 ∨ 0x8400 ≤ a → a < offsetOfKernelFile ∨ offsetOfKernelFile + 512 * n ≤ a →
    s'.memory a = s.memory a

structure Kept (s s' : Loader) (low high : Nat) : Prop where
  count : s'.offsetOfKernelFileCount = s.offsetOfKernelFileCount
  others : ∀ a, a < low ∨ high ≤ a → s'.memory a = s.memory a

section steps
variable {image : Memory} (floppy : Floppy image) {s : Loader}

theorem funcReadOneSector_ends {ax cl : Nat} (bx : Nat) (on_disk : ax < diskSectors)
    (one_track : ax % bpbSecPerTrk + cl ≤ bpbSecPerTrk) :
    Ends (funcReadOneSector floppy ax cl bx) s fun _ s' => Kept s s' bx (bx + 512 * cl) ∧
      ∀ i < 512 * cl, s'.memory (bx + i) = image (512 * ax + i) := by
  unfold diskSectors at on_disk
  unfold bpbSecPerTrk at one_track
  have quotient : ¬ 2 ^ 8 ≤ ax / bpbSecPerTrk := by
    unfold bpbSecPerTrk
    omega
  obtain ⟨data, read, bytes⟩ := @floppy.reads (ax / bpbSecPerTrk / 2) (ax / bpbSecPerTrk % 2)
    (ax % bpbSecPerTrk + 1) cl (by unfold bpbSecPerTrk; omega) (by omega) (by unfold bpbSecPerTrk; omega)
  have place : 18 * (2 * (ax / bpbSecPerTrk / 2) + ax / bpbSecPerTrk % 2) + (ax % bpbSecPerTrk + 1 - 1) = ax := by
    unfold bpbSecPerTrk
    omega
  refine ⟨(), { s with memory := copy data 0 s.memory bx (512 * cl) }, ?_,
    ⟨rfl, fun a outside => copy_outside data s.memory 0 bx (512 * cl) a outside⟩, ?_⟩
  · unfold funcReadOneSector
    rw [if_neg quotient, read]
  · intro i inside
    rw [← place, ← bytes i inside]
    exact (copy_inside data s.memory 0 bx (512 * cl) i inside).trans (by rw [Nat.zero_add])

/-- Even or odd, in one sector or in two: the entry of the table is found. -/
theorem funcGetFATEntry_ends {cluster : Nat} (inside : cluster < tableEntries) :
    Ends (funcGetFATEntry floppy cluster) s fun ax s' =>
      ax = tableEntry image cluster ∧ Kept s s' sectorBuffer (sectorBuffer + 512 * 2) := by
  have places : tableEntries = 3072 := rfl
  have quotient : ¬ 2 ^ 16 ≤ cluster * 3 / 2 := by omega
  have table : cluster * 3 / 2 / bpbBytesPerSec < 9 := by
    unfold bpbBytesPerSec
    omega
  have track : (cluster * 3 / 2 / bpbBytesPerSec + sectorNumOfFAT1Start) % bpbSecPerTrk + 2 ≤ bpbSecPerTrk := by
    unfold sectorNumOfFAT1Start bpbSecPerTrk
    generalize cluster * 3 / 2 / bpbBytesPerSec = q at *
    omega
  have disk : cluster * 3 / 2 / bpbBytesPerSec + sectorNumOfFAT1Start < diskSectors := by
    unfold sectorNumOfFAT1Start diskSectors
    omega
  unfold funcGetFATEntry
  rw [if_neg quotient]
  refine ends_then (funcReadOneSector_ends floppy sectorBuffer disk track) fun _ s' read => ?_
  obtain ⟨kept, bytes⟩ := read
  refine ends_bind ⟨s', s', rfl, ends_pure ⟨?_, kept⟩⟩
  have word : getLittle s'.memory (sectorBuffer + cluster * 3 / 2 % bpbBytesPerSec) 2 =
      getLittle image (tableStart + cluster * 3 / 2) 2 := by
    apply getLittle_congr
    intro i less
    rw [Nat.add_assoc, bytes _ (by unfold bpbBytesPerSec; omega)]
    congr 1
    unfold bpbBytesPerSec sectorNumOfFAT1Start tableStart
    omega
  have low : ∀ x, x &&& 0xfff = x % 2 ^ 12 := fun x => Nat.and_two_pow_sub_one_eq_mod x 12
  have bound := getLittle_lt image (tableStart + cluster * 3 / 2) 2
  rw [word, low]
  rcases Nat.mod_two_eq_zero_or_one cluster with even | odd
  · obtain ⟨half, twice⟩ : ∃ half, cluster = 2 * half := ⟨cluster / 2, by omega⟩
    have offset : cluster * 3 / 2 = 3 * half := by omega
    rw [if_neg (by omega), offset, twice, tableEntry_even (twice ▸ inside)]
  · obtain ⟨half, twice⟩ : ∃ half, cluster = 2 * half + 1 := ⟨cluster / 2, by omega⟩
    have offset : cluster * 3 / 2 = 3 * half + 1 := by omega
    rw [if_pos (by omega), Nat.shiftRight_eq_div_pow, Nat.mod_eq_of_lt (by omega), offset, twice,
      tableEntry_odd (twice ▸ inside)]

theorem movKernel_ends {cx esi edi : Nat} (apart : esi + cx ≤ edi) (room : edi + cx < 2 ^ 32) :
    Ends (movKernel cx esi edi) s fun edi' s' => edi' = edi + cx ∧ Kept s s' edi (edi + cx) ∧
      ∀ i < cx, s'.memory (edi + i) = s.memory (esi + i) := by
  induction cx generalizing s esi edi with
  | zero => exact ends_pure ⟨rfl, ⟨rfl, fun _ _ => rfl⟩, fun i less => absurd less (Nat.not_lt_zero i)⟩
  | succ cx ih =>
    rw [movKernel, Nat.mod_eq_of_lt (by omega), Nat.mod_eq_of_lt (by omega)]
    refine ends_bind ⟨(), _, rfl, ends_mono (ih (by omega) (by omega)) fun edi' s' rest => ?_⟩
    obtain ⟨last, kept, bytes⟩ := rest
    have outside : ∀ a, a ≠ edi → a < edi + 1 ∨ edi + 1 + cx ≤ a → s'.memory a = s.memory a := by
      intro a other far
      rw [kept.others a far]
      exact Function.update_of_ne other _ _
    refine ⟨by omega, ⟨kept.count, fun a far => outside a (by omega) (by omega)⟩, fun i less => ?_⟩
    cases i with
    | zero =>
      rw [Nat.add_zero, Nat.add_zero, kept.others edi (by omega)]
      exact Function.update_self edi _ _
    | succ i =>
      have from_ : edi + (i + 1) = edi + 1 + i := by omega
      have to_ : esi + (i + 1) = esi + 1 + i := by omega
      rw [from_, to_, bytes i (by omega)]
      exact Function.update_of_ne (by omega) _ _

end steps

section search
variable {image : Memory} {m : Memory}

theorem slice_first (m : Memory) (a n : Nat) : slice m a (n + 1) = m a :: slice m (a + 1) n := by
  rw [Nat.add_comm n 1, slice_append]
  rfl

theorem cmpFileName_spec (m : Memory) (name : List UInt8) (di : Nat) :
    ((cmpFileName m name di).1 = true ↔ slice m di name.length = name) ∧ di ≤ (cmpFileName m name di).2 ∧
      (cmpFileName m name di).2 ≤ di + name.length := by
  induction name generalizing di with
  | nil => exact ⟨iff_of_true rfl rfl, Nat.le_refl _, Nat.le_refl _⟩
  | cons c name ih =>
    obtain ⟨named, low, high⟩ := ih (di + 1)
    rw [cmpFileName, List.length_cons, slice_first]
    by_cases same : c = m di
    · rw [if_pos same, named, same]
      exact ⟨⟨congrArg _, fun all => (List.cons.inj all).2⟩, by omega, by omega⟩
    · rw [if_neg same]
      exact ⟨iff_of_false Bool.false_ne_true fun all => same (List.cons.inj all).1.symm, Nat.le_refl _,
        Nat.le_add_right _ _⟩

theorem entry_masked : ∀ k < 16, ∀ x < 12, (0x8000 + 32 * k + x) &&& 0xffe0 = 0x8000 + 32 * k := by decide

theorem searchSector_spec {dx j : Nat} (sixteen : j + dx = 16) :
    match searchSector m dx (sectorBuffer + 32 * j) with
    | some di => ∃ k, j ≤ k ∧ k < 16 ∧ slice m (sectorBuffer + 32 * k) 11 = kernelFileName ∧
        (∀ k', j ≤ k' → k' < k → slice m (sectorBuffer + 32 * k') 11 ≠ kernelFileName) ∧
        di &&& 0xffe0 = sectorBuffer + 32 * k
    | none => ∀ k, j ≤ k → k < 16 → slice m (sectorBuffer + 32 * k) 11 ≠ kernelFileName := by
  induction dx generalizing j with
  | zero => exact fun k low high => by omega
  | succ dx ih =>
    obtain ⟨named, low, high⟩ := cmpFileName_spec m kernelFileName (sectorBuffer + 32 * j)
    have masked : (cmpFileName m kernelFileName (sectorBuffer + 32 * j)).2 &&& 0xffe0 = sectorBuffer + 32 * j := by
      obtain ⟨x, at_⟩ := Nat.exists_eq_add_of_le low
      have short : x < 12 := by
        have length : kernelFileName.length = 11 := rfl
        omega
      rw [at_]
      exact entry_masked j (by omega) x short
    rw [searchSector]
    by_cases found : (cmpFileName m kernelFileName (sectorBuffer + 32 * j)).1 = true
    · rw [if_pos found]
      exact ⟨j, Nat.le_refl _, by omega, named.mp found, fun k' low high => by omega, masked⟩
    · have other : slice m (sectorBuffer + 32 * j) 11 ≠ kernelFileName := fun same => found (named.mpr same)
      have next : sectorBuffer + 32 * j + 0x20 = sectorBuffer + 32 * (j + 1) := by omega
      rw [if_neg found, masked, next]
      have rest := @ih (j + 1) (by omega)
      cases result : searchSector m dx (sectorBuffer + 32 * (j + 1)) with
      | none =>
        rw [result] at rest
        intro k low high
        rcases Nat.eq_or_lt_of_le low with here | later
        · exact here ▸ other
        · exact rest k later high
      | some di =>
        rw [result] at rest
        obtain ⟨k, low, high, same, before, place⟩ := rest
        refine ⟨k, by omega, high, same, fun k' low' high' => ?_, place⟩
        rcases Nat.eq_or_lt_of_le low' with here | later
        · exact here ▸ other
        · exact before k' later high'

theorem searchInRootDir_ends (floppy : Floppy image) {e : Nat} (entry : KernelEntry image e) {size t : Nat}
    (fourteen : size + t = rootDirSectors) (ahead : 16 * t ≤ e) {s : Loader} :
    Ends (searchInRootDir floppy size (sectorNumOfRootDirStart + t)) s fun di s' =>
      Kept s s' sectorBuffer (sectorBuffer + 512) ∧
        getLittle s'.memory ((di &&& 0xffe0) + 0x1a) 2 = firstCluster image e := by
  unfold rootDirSectors at fourteen
  induction size generalizing s t with
  | zero =>
    have inside := entry.inside
    unfold rootEntries at inside
    omega
  | succ size ih =>
    have disk : sectorNumOfRootDirStart + t < diskSectors := by
      unfold sectorNumOfRootDirStart diskSectors
      omega
    have track : (sectorNumOfRootDirStart + t) % bpbSecPerTrk + 1 ≤ bpbSecPerTrk := Nat.mod_lt _ (by decide)
    rw [searchInRootDir]
    refine ends_then (funcReadOneSector_ends floppy sectorBuffer disk track) fun _ s₁ read => ?_
    obtain ⟨kept, bytes⟩ := read
    refine ends_bind ⟨s₁, s₁, rfl, ?_⟩
    have place : ∀ k, 512 * (sectorNumOfRootDirStart + t) + 32 * k = rootStart + 32 * (16 * t + k) := by
      intro k
      unfold sectorNumOfRootDirStart rootStart
      omega
    have names : ∀ k < 16, slice s₁.memory (sectorBuffer + 32 * k) 11 =
        slice image (rootStart + 32 * (16 * t + k)) 11 := by
      intro k less
      apply slice_congr
      intro i inside
      rw [Nat.add_assoc, bytes _ (by omega), ← Nat.add_assoc, place]
    have spec := @searchSector_spec s₁.memory 0x10 0 rfl
    rw [Nat.mul_zero, Nat.add_zero] at spec
    beta_reduce
    cases found : searchSector s₁.memory 0x10 sectorBuffer with
    | none =>
      rw [found] at spec
      have later : 16 * (t + 1) ≤ e := by
        by_contra here
        have absent := spec (e - 16 * t) (Nat.zero_le _) (by omega)
        rw [names _ (by omega), Nat.add_sub_cancel' ahead] at absent
        exact absent entry.named
      refine ends_mono (ih (t := t + 1) (by omega) later) fun di s₂ rest => ?_
      exact ⟨⟨rest.1.count.trans kept.count, fun a far => (rest.1.others a far).trans (kept.others a far)⟩, rest.2⟩
    | some di =>
      rw [found] at spec
      obtain ⟨k, _, less, same, before, masked⟩ := spec
      rw [names k less] at same
      have here : 16 * t + k = e := by
        rcases Nat.lt_trichotomy (16 * t + k) e with early | equal | late
        · exact absurd same (entry.first _ early)
        · exact equal
        · have absent := before (e - 16 * t) (Nat.zero_le _) (by omega)
          rw [names _ (by omega), Nat.add_sub_cancel' ahead] at absent
          exact absurd entry.named absent
      refine ends_pure ⟨kept, ?_⟩
      rw [masked, firstCluster, ← here]
      apply getLittle_congr
      intro i inside
      rw [Nat.add_assoc, Nat.add_assoc, bytes _ (by omega), ← Nat.add_assoc, place, ← Nat.add_assoc]

end search

section following
variable {image : Memory} (floppy : Floppy image) {first n : Nat} {s : Loader}

structure Moved (s s' : Loader) (image : Memory) (cluster : Nat) : Prop where
  bytes : ∀ i < 512, s'.memory (s.offsetOfKernelFileCount + i) = image (512 * clusterSector cluster + i)
  count : s'.offsetOfKernelFileCount = s.offsetOfKernelFileCount + 512
  others : ∀ a, a < 0x7e00 ∨ 0x8400 ≤ a →
    a < s.offsetOfKernelFileCount ∨ s.offsetOfKernelFileCount + 512 ≤ a → s'.memory a = s.memory a

theorem loadCluster_ends {cluster : Nat} (data : 2 ≤ cluster) (on_disk : clusterSector cluster < diskSectors)
    (low : offsetOfKernelFile ≤ s.offsetOfKernelFileCount)
    (room : s.offsetOfKernelFileCount + 512 < 2 ^ 32) :
    Ends (loadCluster floppy cluster) s fun ax s' => ax = tableEntry image cluster ∧ Moved s s' image cluster := by
  have sector : (cluster + rootDirSectors + sectorBalance) % 2 ^ 16 = clusterSector cluster := by
    unfold clusterSector dataSector diskSectors at *
    unfold rootDirSectors sectorBalance
    omega
  have inside : cluster < tableEntries := by
    have places : tableEntries = 3072 := rfl
    unfold clusterSector dataSector diskSectors at on_disk
    omega
  unfold offsetOfKernelFile at low
  unfold loadCluster
  rw [sector]
  refine ends_then (funcReadOneSector_ends floppy offsetTmpOfKernelFile on_disk (Nat.mod_lt _ (by decide)))
    fun _ s₁ read => ?_
  obtain ⟨kept₁, bytes₁⟩ := read
  refine ends_bind ⟨s₁, s₁, rfl, ?_⟩
  have count₁ := kept₁.count
  refine ends_then (movKernel_ends (by unfold offsetTmpOfKernelFile; omega) (by omega)) fun edi s₂ moved => ?_
  obtain ⟨edi_eq, kept₂, bytes₂⟩ := moved
  refine ends_bind ⟨(), _, rfl, ?_⟩
  refine ends_mono (funcGetFATEntry_ends floppy inside) fun ax s₃ got => ?_
  obtain ⟨ax_eq, kept₃⟩ := got
  refine ⟨ax_eq, fun i less => ?_, ?_, fun a far far' => ?_⟩
  · rw [kept₃.others _ (by unfold sectorBuffer; omega), ← count₁]
    exact (bytes₂ i less).trans (bytes₁ i less)
  · rw [kept₃.count, ← count₁]
    exact edi_eq
  · rw [kept₃.others a (by unfold sectorBuffer; omega)]
    refine (kept₂.others a (by omega)).trans (kept₁.others a ?_)
    unfold offsetTmpOfKernelFile
    omega

theorem goOnLoadingFile_ends (chain : Chain image first n) (marked : (tableEntry image)^[n] first = 0xfff)
    {rounds k : Nat} (inside : k < n) (enough : n ≤ rounds + k)
    (count : s.offsetOfKernelFileCount = offsetOfKernelFile + 512 * k) :
    Ends (goOnLoadingFile floppy rounds ((tableEntry image)^[k] first)) s fun _ s' =>
      (∀ j, k ≤ j → j < n → ∀ i < 512, s'.memory (offsetOfKernelFile + 512 * j + i) =
        image (512 * clusterSector ((tableEntry image)^[j] first) + i)) ∧
      s'.offsetOfKernelFileCount = offsetOfKernelFile + 512 * n ∧
      ∀ a, a < 0x7e00 ∨ 0x8400 ≤ a → a < offsetOfKernelFile + 512 * k ∨ offsetOfKernelFile + 512 * n ≤ a →
        s'.memory a = s.memory a := by
  have base : offsetOfKernelFile = 0x100000 := rfl
  have short := chain.short
  induction rounds generalizing s k with
  | zero => omega
  | succ rounds ih =>
    obtain ⟨data, on_disk⟩ := chain.data k inside
    rw [goOnLoadingFile]
    refine ends_then (loadCluster_ends floppy data on_disk (by omega) (by omega)) fun ax s₁ loaded => ?_
    obtain ⟨next, moved⟩ := loaded
    have count₁ := moved.count
    have others₁ := moved.others
    have bytes₁ := moved.bytes
    have advance : offsetOfKernelFile + 512 * k + 512 = offsetOfKernelFile + 512 * (k + 1) := Nat.add_assoc _ _ _
    rw [count] at count₁ others₁ bytes₁
    rw [next, next_cluster]
    by_cases last : k + 1 = n
    · rw [last, if_pos marked]
      refine ends_pure ⟨fun j low high i less => ?_, by omega, fun a far far' => others₁ a far (by omega)⟩
      have here : j = k := by omega
      rw [here]
      exact bytes₁ i less
    · have more : (tableEntry image)^[k + 1] first ≠ 0xfff :=
        fun mark => chain.going (k + 1) (by omega) (by rw [mark]; decide)
      rw [if_neg more]
      rw [advance] at count₁ others₁
      refine ends_mono (ih (by omega) (by omega) count₁) fun _ s' rest => ?_
      obtain ⟨bytes, count', others⟩ := rest
      refine ⟨fun j low high i less => ?_, count', fun a far far' => ?_⟩
      · rcases Nat.eq_or_lt_of_le low with here | later
        · rw [← here, others _ (by omega) (by omega)]
          exact bytes₁ i less
        · exact bytes j later high i less
      · have beyond : offsetOfKernelFile + 512 * (k + 1) ≤ offsetOfKernelFile + 512 * n :=
          Nat.add_le_add_left (Nat.mul_le_mul_left 512 inside) _
        rw [← advance] at others beyond
        exact (others a far (by omega)).trans (others₁ a far (by omega))

/- An end mark below 0xfff is taken for a cluster behind the end of the disk. -/
theorem goOnLoadingFile_mark {mark : Nat} (low : 0xff8 ≤ mark) (high : mark < 2 ^ 12) (rounds : Nat) :
    goOnLoadingFile floppy rounds mark s = none := by
  cases rounds with
  | zero => rfl
  | succ rounds =>
    have sector : (mark + rootDirSectors + sectorBalance) % 2 ^ 16 = mark + 31 := by
      unfold rootDirSectors sectorBalance
      omega
    have unread : funcReadOneSector floppy (mark + 31) 1 offsetTmpOfKernelFile s = none := by
      unfold funcReadOneSector bpbSecPerTrk
      rw [if_neg (by omega), floppy.no_track _ _ _ (by omega)]
    rw [goOnLoadingFile, loadCluster, sector, bind_run, bind_run, unread]
    rfl

theorem goOnLoadingFile_never (chain : Chain image first n) (marked : (tableEntry image)^[n] first ≠ 0xfff)
    {rounds k : Nat} (inside : k < n) (count : s.offsetOfKernelFileCount = offsetOfKernelFile + 512 * k) :
    goOnLoadingFile floppy rounds ((tableEntry image)^[k] first) s = none := by
  have base : offsetOfKernelFile = 0x100000 := rfl
  have short := chain.short
  induction rounds generalizing s k with
  | zero => rfl
  | succ rounds ih =>
    obtain ⟨data, on_disk⟩ := chain.data k inside
    obtain ⟨ax, s₁, ran, next, moved⟩ := @loadCluster_ends image floppy s _ data on_disk (by omega) (by omega)
    have count₁ := moved.count
    rw [goOnLoadingFile, bind_run, ran, Option.bind_some, next, next_cluster]
    by_cases last : k + 1 = n
    · have small := tableEntry_lt image ((tableEntry image)^[k] first)
      rw [next_cluster, last] at small
      rw [last, if_neg marked]
      exact goOnLoadingFile_mark floppy chain.marked small rounds
    · have more : (tableEntry image)^[k + 1] first ≠ 0xfff :=
        fun mark => chain.going (k + 1) (by omega) (by rw [mark]; decide)
      rw [if_neg more]
      rw [count] at count₁
      exact ih (by omega) (count₁.trans (Nat.add_assoc _ _ _))

end following

/-- The kernel is loaded, and the entry of every cluster found. -/
def Follows (image : Memory) (floppy : Floppy image) (e n : Nat) (s : Loader) : Prop :=
  (∃ rounds s', loadKernel floppy rounds s = some ((), s') ∧ Loaded image (firstCluster image e) n s s') ∧
    ∀ cluster < tableEntries, ∀ s, ∃ s', funcGetFATEntry floppy cluster s = some (tableEntry image cluster, s')

section whole
variable {image : Memory} (floppy : Floppy image) {e n : Nat} {s : Loader}

theorem follows_iff (entry : KernelEntry image e) (chain : Chain image (firstCluster image e) n)
    (start : s.offsetOfKernelFileCount = offsetOfKernelFile) :
    Follows image floppy e n s ↔ (tableEntry image)^[n] (firstCluster image e) = 0xfff := by
  obtain ⟨di, s₁, ran, kept, place⟩ := @searchInRootDir_ends image floppy e entry rootDirSectors 0 rfl (Nat.zero_le _) s
  have count : s₁.offsetOfKernelFileCount = offsetOfKernelFile + 512 * 0 := kept.count.trans start
  have load : ∀ rounds, loadKernel floppy rounds s =
      goOnLoadingFile floppy rounds ((tableEntry image)^[0] (firstCluster image e)) s₁ := by
    intro rounds
    have ran' : searchInRootDir floppy rootDirSectors sectorNumOfRootDirStart s = some (di, s₁) := ran
    rw [loadKernel, bind_run, ran', Option.bind_some, Function.iterate_zero_apply, ← place]
    rfl
  constructor
  · intro follows
    by_contra other
    obtain ⟨rounds, s', loaded, _⟩ := follows.1
    rw [load, goOnLoadingFile_never floppy chain other chain.some_ count] at loaded
    cases loaded
  · intro marked
    obtain ⟨_, s', ran', bytes, count', others⟩ :=
      @goOnLoadingFile_ends image floppy _ n s₁ chain marked n 0 chain.some_ (Nat.le_add_right _ _) count
    refine ⟨⟨n, s', (load n).trans ran', fun k less => bytes k (Nat.zero_le _) less, count', ?_⟩, ?_⟩
    · intro a far far'
      refine (others a far (by omega)).trans (kept.others a ?_)
      unfold sectorBuffer
      omega
    · intro cluster inside s
      obtain ⟨ax, s', got, same, _⟩ := @funcGetFATEntry_ends image floppy s cluster inside
      exact ⟨s', same ▸ got⟩

end whole

/-- For every floppy with a KERNEL.BIN, the loader follows its chain and stops if and only if the chain
    ends with 0xfff. -/
theorem loader_follows_iff {image : Memory} (floppy : Floppy image) {e n : Nat} (entry : KernelEntry image e)
    (chain : Chain image (firstCluster image e) n) {s : Loader}
    (start : s.offsetOfKernelFileCount = offsetOfKernelFile) :
    Follows image floppy e n s ↔ (tableEntry image)^[n] (firstCluster image e) = 0xfff :=
  follows_iff floppy entry chain start

def floppyOf (image : Memory) : Floppy image where
  int13h track head sector _ :=
    if track < 80 then some fun i => image (512 * (18 * (2 * track + head) + (sector - 1)) + i) else none
  reads on_disk _ _ := ⟨_, if_pos on_disk.1, fun _ _ => rfl⟩
  no_track _ _ _ beyond := if_neg (Nat.not_lt.mpr beyond)

/- KERNEL.BIN is the entry 17 of the root directory, in its second sector, and has the clusters 2, 341
   and 4. The entry of 341 lies in two sectors of the table. -/
def threeClusters : Memory := fun i =>
  if i = tableStart + 3 then 0x55
  else if i = tableStart + 4 then 0x01
  else if i = tableStart + 6 then 0xff
  else if i = tableStart + 7 then 0x0f
  else if i = tableStart + 511 then 0x40
  else if i < rootStart + 32 * 17 then 0
  else if i < rootStart + 32 * 17 + 11 then kernelFileName.getD (i - (rootStart + 32 * 17)) 0
  else if i = rootStart + 32 * 17 + 0x1a then 2
  else 0

theorem threeClusters_entry : KernelEntry threeClusters 17 where
  inside := by decide
  named := by
    unfold Named
    decide +kernel
  first := by
    unfold Named
    decide +kernel

theorem threeClusters_first : firstCluster threeClusters 17 = 2 := by decide +kernel

theorem threeClusters_next : tableEntry threeClusters 2 = 341 ∧ tableEntry threeClusters 341 = 4 ∧
    tableEntry threeClusters 4 = 0xfff := by
  refine ⟨?_, ?_, ?_⟩
  · exact (@tableEntry_even _ 1 (by decide)).trans (by decide +kernel)
  · exact (@tableEntry_odd _ 170 (by decide)).trans (by decide +kernel)
  · exact (@tableEntry_even _ 2 (by decide)).trans (by decide +kernel)

theorem threeClusters_chain : Chain threeClusters (firstCluster threeClusters 17) 3 := by
  obtain ⟨second, third, mark⟩ := threeClusters_next
  rw [threeClusters_first]
  refine ⟨by decide, fun k less => ?_, ?_⟩
  · match k, less with
    | 0, _ => decide
    | 1, _ =>
      rw [Function.iterate_one, second]
      decide
    | 2, _ =>
      rw [Function.iterate_succ_apply, Function.iterate_one, second, third]
      decide
  · rw [Function.iterate_succ_apply, Function.iterate_succ_apply, Function.iterate_one, second, third, mark]
    decide

theorem loader_follows_iff_three :
    Follows threeClusters (floppyOf threeClusters) 17 3 ⟨fun _ => 0, offsetOfKernelFile⟩ := by
  obtain ⟨second, third, mark⟩ := threeClusters_next
  refine (loader_follows_iff (floppyOf threeClusters) threeClusters_entry threeClusters_chain rfl).mpr ?_
  rw [threeClusters_first, Function.iterate_succ_apply, Function.iterate_succ_apply, Function.iterate_one,
    second, third, mark]

def oneCluster (low : UInt8) : Memory := fun i =>
  if i = tableStart + 3 then low
  else if i = tableStart + 4 then 0x0f
  else if i < rootStart then 0
  else if i < rootStart + 11 then kernelFileName.getD (i - rootStart) 0
  else if i = rootStart + 0x1a then 2
  else 0

theorem oneCluster_entry (low : UInt8) : KernelEntry (oneCluster low) 0 where
  inside := by decide
  named := rfl
  first := fun e less => absurd less (Nat.not_lt_zero e)

theorem oneCluster_first (low : UInt8) : firstCluster (oneCluster low) 0 = 2 := rfl

theorem oneCluster_mark (low : UInt8) :
    (tableEntry (oneCluster low))^[1] (firstCluster (oneCluster low) 0) = (low.toNat + 256 * 0x0f) % 2 ^ 12 := by
  have bytes : getLittle (oneCluster low) (tableStart + 3 * 1) 2 = low.toNat + 256 * 0x0f := rfl
  rw [oneCluster_first, Function.iterate_one, ← bytes]
  exact @tableEntry_even _ 1 (by decide)

theorem oneCluster_chain {low : UInt8} (high : 0xf8 ≤ low.toNat) :
    Chain (oneCluster low) (firstCluster (oneCluster low) 0) 1 where
  some_ := Nat.one_pos
  data := by
    intro k less
    rw [Nat.lt_one_iff.mp less, Function.iterate_zero_apply, oneCluster_first]
    decide
  marked := by
    have byte := low.toNat_lt
    rw [oneCluster_mark]
    omega

/- 0xff8 ends the chain as well, but not for the loader. -/
theorem loader_runs_on : ¬ ∀ (image : Memory) (floppy : Floppy image) (e n : Nat) (s : Loader),
    KernelEntry image e → Chain image (firstCluster image e) n →
      s.offsetOfKernelFileCount = offsetOfKernelFile → Follows image floppy e n s := by
  intro claim
  have chain : Chain (oneCluster 0xf8) (firstCluster (oneCluster 0xf8) 0) 1 := oneCluster_chain (by decide)
  have follows := claim _ (floppyOf _) 0 1 ⟨fun _ => 0, offsetOfKernelFile⟩ (oneCluster_entry 0xf8) chain rfl
  have marked := (follows_iff (floppyOf _) (oneCluster_entry 0xf8) chain rfl).mp follows
  rw [oneCluster_mark] at marked
  exact absurd marked (by decide)

end KernelLoader

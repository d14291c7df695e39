import Q2os.Volume

/- Reading and writing one entry of the table: what the write of an entry does to every entry of
   every copy. -/
namespace TableEntries
open ByteMemory BlockProgram Fat32

def rawEntry (fsbi : SbInfo) (w : World) (k c : Nat) : Nat :=
  entryAt (w.sectors (fsbi.FAT1Firstsector + fsbi.sectorPerFAT * k + c / 128)) (c % 128)

/- The sector DISK1_FAT32_write_FAT_Entry puts into every copy. -/
def newSector (fsbi : SbInfo) (w : World) (e value : Nat) : Memory :=
  setEntry (w.sectors (fsbi.FAT1Firstsector + e / 128)) (e % 128)
    (rawEntry fsbi w 0 e / 2 ^ 28 * 2 ^ 28 + value % 2 ^ 28)

def SameCopies (fsbi : SbInfo) (w : World) (i j : Nat) : Prop :=
  ∀ x < 512 * fsbi.sectorPerFAT, w.disk (512 * (fsbi.FAT1Firstsector + fsbi.sectorPerFAT * i) + x) =
    w.disk (512 * (fsbi.FAT1Firstsector + fsbi.sectorPerFAT * j) + x)

structure Numbered (fsbi : SbInfo) (c : Nat) : Prop where
  in_table : InTable fsbi c
  word : c < 2 ^ 32

theorem numbered_of_layout {fsbi : SbInfo} (layout : Layout fsbi) {c : Nat}
    (in_table : InTable fsbi c) : Numbered fsbi c := by
  have size := layout.table_size
  refine ⟨in_table, ?_⟩
  unfold InTable at in_table
  omega

section fields
variable {m m' : Memory} {a value n i : Nat}

theorem setLittle_inside (low : a ≤ i) (high : i < a + n) :
    setLittle m a value n i = UInt8.ofNat (value / 256 ^ (i - a)) := by
  induction n generalizing m a value with
  | zero => omega
  | succ n ih =>
    rw [setLittle]
    by_cases first : i = a
    · rw [setLittle_outside (by omega), first, Function.update_self, Nat.sub_self, Nat.pow_zero,
        Nat.div_one]
    · have next : i - a = i - (a + 1) + 1 := by omega
      rw [ih (by omega) (by omega), next, Nat.pow_succ', Nat.div_div_eq_div_mul]

theorem setLittle_congr (same : m i = m' i) : setLittle m a value n i = setLittle m' a value n i := by
  by_cases inside : a ≤ i ∧ i < a + n
  · rw [setLittle_inside inside.1 inside.2, setLittle_inside inside.1 inside.2]
  · rw [setLittle_outside (by omega), setLittle_outside (by omega), same]

theorem setLittle_twice (m : Memory) (a first value n : Nat) :
    setLittle (setLittle m a first n) a value n = setLittle m a value n := by
  funext i
  by_cases inside : a ≤ i ∧ i < a + n
  · rw [setLittle_inside inside.1 inside.2, setLittle_inside inside.1 inside.2]
  · rw [setLittle_outside (by omega), setLittle_outside (by omega), setLittle_outside (by omega)]

end fields

section write
variable {fsbi : SbInfo} {w w' : World} {e value : Nat}

theorem copy_place {k k' a b : Nat} (left : a < fsbi.sectorPerFAT) (right : b < fsbi.sectorPerFAT)
    (same : fsbi.sectorPerFAT * k + a = fsbi.sectorPerFAT * k' + b) : a = b := by
  have rest := congrArg (· % fsbi.sectorPerFAT) same
  simpa only [Nat.mul_add_mod, Nat.mod_eq_of_lt left, Nat.mod_eq_of_lt right] using rest

/-- The disk behind the write of an entry. -/
structure Put (fsbi : SbInfo) (w w' : World) (e value : Nat) : Prop where
  inside : ∀ k < fsbi.numFATs, ∀ i < 512, w'.disk (512 * (fsbi.FAT1Firstsector +
    fsbi.sectorPerFAT * k + e / 128) + i) = newSector fsbi w e value i
  outside : ∀ x, (∀ k < fsbi.numFATs,
    x / 512 ≠ fsbi.FAT1Firstsector + fsbi.sectorPerFAT * k + e / 128) → w'.disk x = w.disk x

theorem run_put (fsbi : SbInfo) (w : World) (word : e < 2 ^ 32) (value : Nat) :
    ∃ w', run (DISK1FAT32WriteFATEntry fsbi e value) w = some ((), w') ∧ Put fsbi w w' e value := by
  obtain ⟨w', ran, _, _, disk⟩ :=
    run_writeFATCopies fsbi e (newSector fsbi w e value) fsbi.numFATs 0 w
  refine ⟨w', ?_, fun k copy i within => ?_, fun x outside => ?_⟩
  · rw [← ran]
    simp only [DISK1FAT32WriteFATEntry, Nat.mod_eq_of_lt word, newSector, rawEntry, Nat.mul_zero,
      Nat.add_zero]
    rfl
  · have byte : (512 * (fsbi.FAT1Firstsector + fsbi.sectorPerFAT * k + e / 128) + i) % 512 = i := by
      omega
    rw [(disk _).1 ⟨k, by omega, by omega, by omega⟩, byte]
  · exact (disk x).2 fun k _ copy => outside k (by omega)

theorem Put.sectors (put : Put fsbi w w' e value) (inside : InTable fsbi e) {k c : Nat}
    (copy : k < fsbi.numFATs) (in_table : InTable fsbi c) {i : Nat} (within : i < 512) :
    w'.sectors (fsbi.FAT1Firstsector + fsbi.sectorPerFAT * k + c / 128) i =
      if c / 128 = e / 128 then newSector fsbi w e value i
      else w.sectors (fsbi.FAT1Firstsector + fsbi.sectorPerFAT * k + c / 128) i := by
  unfold InTable at inside in_table
  by_cases same : c / 128 = e / 128
  · rw [if_pos same, same]
    exact put.inside k copy i within
  · rw [if_neg same]
    apply put.outside
    intro k' _ here
    apply same
    apply @copy_place fsbi k k' _ _ (by omega) (by omega)
    omega

/- Every entry of every copy: the one written, its neighbours in the sector as the first copy has
   them, all others as before. -/
theorem Put.entry (put : Put fsbi w w' e value) (inside : InTable fsbi e) {k c : Nat}
    (copy : k < fsbi.numFATs) (in_table : InTable fsbi c) :
    rawEntry fsbi w' k c =
      if c = e then rawEntry fsbi w 0 e / 2 ^ 28 * 2 ^ 28 + value % 2 ^ 28
      else rawEntry fsbi w (if c / 128 = e / 128 then 0 else k) c := by
  have small := getLittle_lt (w.sectors (fsbi.FAT1Firstsector + fsbi.sectorPerFAT * 0 + e / 128))
    (4 * (e % 128)) 4
  have word : rawEntry fsbi w 0 e < 2 ^ 32 := small
  have read : rawEntry fsbi w' k c = entryAt (if c / 128 = e / 128 then newSector fsbi w e value
      else w.sectors (fsbi.FAT1Firstsector + fsbi.sectorPerFAT * k + c / 128)) (c % 128) := by
    apply getLittle_congr
    intro i within
    rw [put.sectors inside copy in_table (by omega)]
    split
    · rfl
    · rfl
  rw [read]
  by_cases same : c / 128 = e / 128
  · rw [if_pos same, if_pos same, newSector, entryAt_setEntry]
    by_cases slot : c % 128 = e % 128
    · have equal : c = e := by omega
      rw [if_pos slot, if_pos equal]
      omega
    · have differ : c ≠ e := fun equal => slot (by rw [equal])
      rw [if_neg slot, if_neg differ, rawEntry, same, Nat.mul_zero, Nat.add_zero]
  · have differ : c ≠ e := fun equal => same (by rw [equal])
    rw [if_neg same, if_neg same, if_neg differ, rawEntry]

theorem fatEntry_raw {c : Nat} (word : c < 2 ^ 32) :
    fatEntry fsbi w c = rawEntry fsbi w 0 c % 2 ^ 28 := by
  simp only [fatEntry, rawEntry, Nat.mod_eq_of_lt word, Nat.mul_zero, Nat.add_zero]

theorem Put.copies (put : Put fsbi w w' e value) (inside : InTable fsbi e) {i j : Nat}
    (left : i < fsbi.numFATs) (right : j < fsbi.numFATs) (same : SameCopies fsbi w i j) :
    SameCopies fsbi w' i j := by
  intro x within
  have in_table : InTable fsbi (128 * (x / 512)) := by
    unfold InTable
    omega
  have sector : 128 * (x / 512) / 128 = x / 512 := by omega
  have here := fun k copy => @Put.sectors fsbi w w' e value put inside k _ copy in_table (x % 512)
    (by omega)
  have place : ∀ k, 512 * (fsbi.FAT1Firstsector + fsbi.sectorPerFAT * k) + x =
      512 * (fsbi.FAT1Firstsector + fsbi.sectorPerFAT * k + x / 512) + x % 512 := by omega
  simp only [sector, World.sectors, ← place] at here
  rw [here i left, here j right]
  split
  · rfl
  · exact same x within

theorem Put.twice {w'' u : World} {last : Nat} (first : Put fsbi w w' e value)
    (second : Put fsbi w' w'' e last) (alone : Put fsbi w u e last) (inside : InTable fsbi e)
    (copies : 0 < fsbi.numFATs) : w''.disk = u.disk := by
  have flags : rawEntry fsbi w' 0 e / 2 ^ 28 = rawEntry fsbi w 0 e / 2 ^ 28 := by
    rw [first.entry inside copies inside, if_pos rfl]
    omega
  have sector : ∀ i < 512, newSector fsbi w' e last i = newSector fsbi w e last i := by
    intro i within
    have base := first.sectors inside copies inside within
    rw [if_pos rfl, Nat.mul_zero, Nat.add_zero] at base
    have again := setLittle_twice (w.sectors (fsbi.FAT1Firstsector + e / 128)) (4 * (e % 128))
      (rawEntry fsbi w 0 e / 2 ^ 28 * 2 ^ 28 + value % 2 ^ 28)
      (rawEntry fsbi w 0 e / 2 ^ 28 * 2 ^ 28 + last % 2 ^ 28) 4
    rw [newSector, newSector, flags, setEntry, setLittle_congr base, newSector, setEntry, again,
      setEntry]
  funext x
  by_cases here : ∃ k < fsbi.numFATs,
      x / 512 = fsbi.FAT1Firstsector + fsbi.sectorPerFAT * k + e / 128
  · obtain ⟨k, copy, here⟩ := here
    obtain ⟨i, within, rfl⟩ : ∃ i < 512, x = 512 * (fsbi.FAT1Firstsector + fsbi.sectorPerFAT * k +
      e / 128) + i := ⟨x % 512, by omega, by omega⟩
    rw [second.inside k copy i within, alone.inside k copy i within, sector i within]
  · have none_ := fun k copy at_ => here ⟨k, copy, at_⟩
    rw [second.outside x none_, first.outside x none_, alone.outside x none_]

theorem copies_allowed {ok : Nat → Nat → Prop} (buf : Memory) {left i : Nat}
    (allowed : ∀ k < fsbi.numFATs, ok (fsbi.FAT1Firstsector + fsbi.sectorPerFAT * k + e / 128) 1)
    (within : i + left ≤ fsbi.numFATs) :
    Always Anything ok (writeFATCopies fsbi e buf left i) fun _ => True := by
  induction left generalizing i with
  | zero => trivial
  | succ left ih =>
    simp only [writeFATCopies, always_bind, always_writeSectors]
    exact ⟨allowed i (by omega), fun _ => ih (by omega)⟩

theorem entry_allowed {ok : Nat → Nat → Prop} (numbered : Numbered fsbi e) (value : Nat)
    (tables : ∀ sector, TableSector fsbi sector → ok sector 1) :
    Always Anything ok (DISK1FAT32WriteFATEntry fsbi e value) fun _ => True := by
  simp only [DISK1FAT32WriteFATEntry, always_bind, always_readSectors,
    Nat.mod_eq_of_lt numbered.word]
  intro reply
  apply copies_allowed
  · exact fun k copy => tables _ (copy_sector numbered.in_table copy)
  · omega

end write

/-- What a write of an entry promises. -/
structure Laws (fsbi : SbInfo) (w w' : World) (e value : Nat) : Prop where
  get : run (DISK1FAT32ReadFATEntry fsbi e) w' = some (value % 2 ^ 28, w')
  other : ∀ c, Numbered fsbi c → c ≠ e → ∃ entry,
    run (DISK1FAT32ReadFATEntry fsbi c) w = some (entry, w) ∧
      run (DISK1FAT32ReadFATEntry fsbi c) w' = some (entry, w')
  flags : ∀ c, InTable fsbi c → rawEntry fsbi w' 0 c / 2 ^ 28 = rawEntry fsbi w 0 c / 2 ^ 28
  copies : ∀ i < fsbi.numFATs, ∀ j < fsbi.numFATs, SameCopies fsbi w i j → SameCopies fsbi w' i j
  frame : ∀ x, ¬ TableSector fsbi (x / 512) → w'.disk x = w.disk x
  last : ∀ again, ∃ w'' u, run (DISK1FAT32WriteFATEntry fsbi e again) w' = some ((), w'') ∧
    run (DISK1FAT32WriteFATEntry fsbi e again) w = some ((), u) ∧ w''.disk = u.disk

/-- The write of an entry and the reads of all entries, whatever the tables hold; no transfer
    writes a sector outside the copies. -/
theorem fat_entry_laws (fsbi : SbInfo) (copies : 0 < fsbi.numFATs) (e : Nat)
    (numbered : Numbered fsbi e) (value : Nat) (w : World) :
    (∃ w', run (DISK1FAT32WriteFATEntry fsbi e value) w = some ((), w') ∧
      Laws fsbi w w' e value) ∧
    Always Anything (fun sector count => TableSector fsbi sector ∧ count = 1)
      (DISK1FAT32WriteFATEntry fsbi e value) fun _ => True := by
  have inside := numbered.in_table
  obtain ⟨w', ran, put⟩ := run_put fsbi w numbered.word value
  refine ⟨⟨w', ran, ?_, fun c other differ => ?_, fun c in_table => ?_, fun i left j right same =>
    put.copies inside left right same, fun x outside => ?_, fun again => ?_⟩,
    entry_allowed numbered value fun _ table => ⟨table, rfl⟩⟩
  · rw [run_readFATEntry, fatEntry_raw numbered.word, put.entry inside copies inside, if_pos rfl,
      Nat.mul_add_mod_self_right, Nat.mod_mod]
  · have zero : (if c / 128 = e / 128 then 0 else 0) = 0 := ite_self 0
    refine ⟨fatEntry fsbi w c, run_readFATEntry fsbi w c, ?_⟩
    rw [run_readFATEntry, fatEntry_raw other.word, put.entry inside copies other.in_table,
      if_neg differ, zero, fatEntry_raw other.word]
  · have zero : (if c / 128 = e / 128 then 0 else 0) = 0 := ite_self 0
    rw [put.entry inside copies in_table, zero]
    by_cases same : c = e
    · rw [if_pos same, same]
      omega
    · rw [if_neg same]
  · apply put.outside
    intro k copy here
    exact outside (here ▸ copy_sector inside copy)
  · obtain ⟨w'', second, put₂⟩ := run_put fsbi w' numbered.word again
    obtain ⟨u, alone, put₃⟩ := run_put fsbi w numbered.word again
    exact ⟨w'', u, second, alone, put.twice put₂ put₃ inside copies⟩

def twoCopies : SbInfo := ⟨0, 8, 1, 512, 4, 2, 1, 2⟩

/- A value with a bit above the 28. -/
theorem fat_entry_laws_two_copies :
    (∃ w', run (DISK1FAT32WriteFATEntry twoCopies 5 0x10000003) ⟨zeros, zeros, [], [], []⟩ =
        some ((), w') ∧ Laws twoCopies ⟨zeros, zeros, [], [], []⟩ w' 5 0x10000003) ∧
    Always Anything (fun sector count => TableSector twoCopies sector ∧ count = 1)
      (DISK1FAT32WriteFATEntry twoCopies 5 0x10000003) fun _ => True :=
  fat_entry_laws twoCopies (by decide) 5 ⟨(by decide : 5 < 128), by decide⟩ 0x10000003 _

end TableEntries

import Q2os.ChainGrowth
import Q2os.WriteIsolation
import Q2os.WriteParts
import Q2os.WriteThenRead

/- FAT32_write of different files by tasks that take turns: while no two of them take clusters at
   the same time, each has its own clusters and the entries keep what was written to them. -/
namespace InterleavedWrites
open ByteMemory BlockProgram Fat32 Interleaving WriteParts ChainGrowth Run
open Descriptors (volume)
open WriteIsolation (HasEntry load_allowed copyIn_kept inode_allowed)
open FilePosition (clear_cluster)
open NameMatching (oneSectorVolume oneSector_layout)
open Descriptors (readme_valid)
open WriteThenRead (markedDisk)

section table
variable {fsbi : SbInfo} {fine : Memory → Prop} {disk disk' : Memory}

def entry (fsbi : SbInfo) (disk : Memory) (c : Nat) : Nat := fatEntry fsbi (volume disk) c

theorem entry_agree (layout : Layout fsbi) (same : Agree (TableSector fsbi) disk disk') {c : Nat}
    (inside : InTable fsbi c) : entry fsbi disk' c = entry fsbi disk c :=
  @fatEntry_frame fsbi layout (volume disk) (volume disk') same c inside

theorem firstFree_congr {w w' : World} {a : Nat} (first : FirstFree fsbi w a)
    (same : ∀ c, InTable fsbi c → fatEntry fsbi w' c = fatEntry fsbi w c) :
    FirstFree fsbi w' a := by
  refine ⟨first.in_table, (same a first.in_table).trans first.free, fun c less => ?_⟩
  rw [same c (Nat.lt_trans less first.in_table)]
  exact first.first c less

theorem holds_findAvailable (layout : Layout fsbi) {left i : Nat}
    (sectors : i + left = fsbi.sectorPerFAT) (earlier : ∀ c < 128 * i, entry fsbi disk c ≠ 0) :
    Holds (TableSector fsbi) fine (findAvailable fsbi left i) disk fun a disk' =>
      disk' = disk ∧ (a = 0 ∨ FirstFree fsbi (volume disk) a) := by
  have size : fsbi.sectorPerFAT ≤ 2 ^ 24 := Nat.le_trans layout.table_size (by decide)
  induction left generalizing i with
  | zero => exact ⟨rfl, Or.inl rfl⟩
  | succ left ih =>
    simp only [findAvailable, holds_bind, holds_readSectors]
    intro shown same
    have same_entry : ∀ c, InTable fsbi c → entry fsbi disk c = entry fsbi shown c :=
      fun c inside => (entry_agree layout same inside).symm
    have in_sector : ∀ c < 128 * (i + 1), InTable fsbi c := by
      intro c less
      unfold InTable
      omega
    have shown_earlier : ∀ c < 128 * i, fatEntry fsbi (volume shown) c ≠ 0 := by
      intro c less
      have known := earlier c less
      rwa [same_entry c (in_sector c (by omega))] at known
    cases found : freeIn (received (some fun k => shown (512 * (fsbi.FAT1Firstsector + i) + k))) with
    | some j =>
      have first : FirstFree fsbi (volume shown) (128 * i + j) :=
        found_first size (by omega) shown_earlier found
      rw [Nat.mul_comm] at first
      exact ⟨rfl, Or.inr (firstFree_congr first same_entry)⟩
    | none =>
      refine ih (by omega) fun c less => ?_
      rw [same_entry c (in_sector c less)]
      exact none_found size (by omega) shown_earlier found c less

theorem entry_copied (layout : Layout fsbi) (buf : Memory) {e k c : Nat}
    (c_inside : InTable fsbi c) :
    entry fsbi (copy buf 0 disk (512 * (fsbi.FAT1Firstsector + fsbi.sectorPerFAT * k + e / 128))
        (512 * 1)) c =
      if k = 0 ∧ c / 128 = e / 128 then entryAt buf (c % 128) % 2 ^ 28 else entry fsbi disk c := by
  have word := inTable_word layout c_inside
  have sector : c / 128 < fsbi.sectorPerFAT := by
    unfold InTable at c_inside
    omega
  have target : fsbi.FAT1Firstsector + c / 128 =
      fsbi.FAT1Firstsector + fsbi.sectorPerFAT * k + e / 128 ↔ k = 0 ∧ c / 128 = e / 128 := by
    constructor
    · intro same
      rcases Nat.eq_zero_or_pos k with first | later
      · rw [first] at same
        exact ⟨first, by omega⟩
      · have far := Nat.le_mul_of_pos_right fsbi.sectorPerFAT later
        omega
    · intro both
      rw [both.1, both.2, Nat.mul_zero, Nat.add_zero]
  have bytes : ∀ i < 512, (volume (copy buf 0 disk
      (512 * (fsbi.FAT1Firstsector + fsbi.sectorPerFAT * k + e / 128)) (512 * 1))).sectors
        (fsbi.FAT1Firstsector + c / 128) i =
      if k = 0 ∧ c / 128 = e / 128 then buf i
      else (volume disk).sectors (fsbi.FAT1Firstsector + c / 128) i := by
    intro i within
    have byte := putSectors_one (volume disk)
      (fsbi.FAT1Firstsector + fsbi.sectorPerFAT * k + e / 128) buf
      (512 * (fsbi.FAT1Firstsector + c / 128) + i)
    have quot : (512 * (fsbi.FAT1Firstsector + c / 128) + i) / 512 =
        fsbi.FAT1Firstsector + c / 128 := by omega
    have rest : (512 * (fsbi.FAT1Firstsector + c / 128) + i) % 512 = i := by omega
    simp only [quot, rest, target] at byte
    exact byte
  simp only [entry, fatEntry, word]
  have read : entryAt ((volume (copy buf 0 disk
      (512 * (fsbi.FAT1Firstsector + fsbi.sectorPerFAT * k + e / 128)) (512 * 1))).sectors
        (fsbi.FAT1Firstsector + c / 128)) (c % 128) =
      entryAt (if k = 0 ∧ c / 128 = e / 128 then buf
        else (volume disk).sectors (fsbi.FAT1Firstsector + c / 128)) (c % 128) := by
    apply getLittle_congr
    intro i within
    rw [bytes _ (by omega)]
    split
    · rfl
    · rfl
  rw [read]
  split
  · rfl
  · rfl

theorem holds_laterCopies (layout : Layout fsbi) (buf : Memory) {e left k : Nat}
    (later : 0 < k) {table : Nat → Nat}
    (same : ∀ c, InTable fsbi c → entry fsbi disk c = table c)
    (stays : ∀ shown, (∀ c, InTable fsbi c → entry fsbi shown c = table c) → fine shown) :
    Holds (TableSector fsbi) fine (writeFATCopies fsbi e buf left k) disk fun _ disk' =>
      ∀ c, InTable fsbi c → entry fsbi disk' c = table c := by
  induction left generalizing k disk with
  | zero => exact same
  | succ left ih =>
    simp only [writeFATCopies, holds_bind, holds_writeSectors]
    have still : ∀ c, InTable fsbi c → entry fsbi (copy buf 0 disk
        (512 * (fsbi.FAT1Firstsector + fsbi.sectorPerFAT * k + e / 128)) (512 * 1)) c = table c := by
      intro c c_inside
      rw [entry_copied layout buf c_inside, if_neg (by omega)]
      exact same c c_inside
    exact ⟨stays _ still, ih (by omega) still⟩

/- An entry written while nobody else writes the table; the others never change. -/
theorem holds_writeFATEntry (layout : Layout fsbi) {e : Nat} (inside : InTable fsbi e) (value : Nat)
    (stays : ∀ shown, (∀ c, InTable fsbi c → c ≠ e → entry fsbi shown c = entry fsbi disk c) →
      fine shown) :
    Holds (TableSector fsbi) fine (DISK1FAT32WriteFATEntry fsbi e value) disk fun _ disk' =>
      ∀ c, InTable fsbi c →
        entry fsbi disk' c = if c = e then value % 2 ^ 28 else entry fsbi disk c := by
  have word := inTable_word layout inside
  simp only [DISK1FAT32WriteFATEntry, word, holds_bind, holds_readSectors]
  intro shown same
  obtain ⟨left, copies⟩ : ∃ left, fsbi.numFATs = left + 1 :=
    ⟨fsbi.numFATs - 1, by have := layout.some_table; omega⟩
  have known : ∀ c, InTable fsbi c → c / 128 = e / 128 →
      entryAt (fun i => shown (512 * (fsbi.FAT1Firstsector + e / 128) + i)) (c % 128) % 2 ^ 28 =
        entry fsbi disk c := by
    intro c c_inside sector
    rw [← entry_agree layout same c_inside, ← sector]
    simp only [entry, fatEntry, inTable_word layout c_inside]
    rfl
  have old_small := getLittle_lt (fun i => shown (512 * (fsbi.FAT1Firstsector + e / 128) + i))
    (4 * (e % 128)) 4
  generalize reply : (fun i => shown (512 * (fsbi.FAT1Firstsector + e / 128) + i)) = sectors
    at known old_small ⊢
  simp only [received, Option.getD_some, copies, writeFATCopies, holds_bind, holds_writeSectors]
  generalize made : setEntry sectors (e % 128)
    (entryAt sectors (e % 128) / 2 ^ 28 * 2 ^ 28 + value % 2 ^ 28) = buf
  have changed : ∀ c, InTable fsbi c → entry fsbi (copy buf 0 disk
      (512 * (fsbi.FAT1Firstsector + fsbi.sectorPerFAT * 0 + e / 128)) (512 * 1)) c =
        if c = e then value % 2 ^ 28 else entry fsbi disk c := by
    intro c c_inside
    rw [entry_copied layout buf c_inside]
    by_cases sector : c / 128 = e / 128
    · rw [if_pos ⟨rfl, sector⟩, ← made, entryAt_setEntry]
      by_cases slot : c % 128 = e % 128
      · have equal : c = e := by omega
        rw [if_pos slot, if_pos equal]
        unfold entryAt
        omega
      · have differ : c ≠ e := fun equal => slot (by rw [equal])
        rw [if_neg slot, if_neg differ]
        exact known c c_inside sector
    · have differ : c ≠ e := fun equal => sector (by rw [equal])
      rw [if_neg fun both => sector both.2, if_neg differ]
  have others : ∀ shown, (∀ c, InTable fsbi c → entry fsbi shown c =
      if c = e then value % 2 ^ 28 else entry fsbi disk c) → fine shown := by
    intro shown same
    refine stays shown fun c c_inside other => ?_
    rw [same c c_inside, if_neg other]
  exact ⟨others _ changed, holds_laterCopies layout buf (by decide) changed others⟩

theorem holds_extendChain (layout : Layout fsbi) {s : Writing} (in_table : InTable fsbi s.cluster)
    (stays : ∀ a, FirstFree fsbi (volume disk) a → ∀ shown, (∀ c, InTable fsbi c →
      c ≠ s.cluster → c ≠ a → entry fsbi shown c = entry fsbi disk c) → fine shown) :
    Holds (TableSector fsbi) fine (extendChain fsbi s) disk fun next disk' =>
      (next = none ∧ disk' = disk) ∨
      ∃ a, FirstFree fsbi (volume disk) a ∧ a ≠ 0 ∧
        next = some { s with cluster := a, flags := true } ∧
        Linked fsbi (volume disk) (volume disk') s.cluster a := by
  simp only [extendChain, holds_bind]
  refine holds_mono (holds_findAvailable layout (Nat.zero_add _) fun c less => by omega) ?_
  intro a found_disk found
  rw [found.1]
  by_cases full : a = 0
  · rw [if_pos full]
    exact Or.inl ⟨rfl, rfl⟩
  · have taken := found.2.resolve_left full
    have small : a < 2 ^ 28 := by
      have inside := taken.in_table
      have size := layout.table_size
      unfold InTable at inside
      omega
    rw [if_neg full, holds_bind]
    refine holds_mono (holds_writeFATEntry layout in_table a fun shown same =>
      stays a taken shown fun c inside other _ => same c inside other) fun _ disk₁ linked => ?_
    rw [holds_bind]
    refine holds_mono (holds_writeFATEntry layout taken.in_table 0x0ffffff8 fun shown same =>
      stays a taken shown fun c inside other new => ?_) fun _ disk₂ marked => ?_
    · rw [same c inside new, linked c inside, if_neg other]
    · refine Or.inr ⟨a, taken, full, rfl, fun d inside => ?_⟩
      have first := linked d inside
      have second := marked d inside
      unfold entry at first second
      rw [second, first, Nat.mod_eq_of_lt small]
      rfl

end table

def latest : List Update → Nat → Option Nat
  | [], _ => none
  | .took _ :: log, c => latest log c
  | .wrote e value :: log, c => if c = e then some value else latest log c

/- Tasks with a call of FAT32_write each, the disk before them, and how many clusters their files
   have there. -/
structure Writers (ι : Type) where
  fsbi : SbInfo
  disk : Memory
  calls : ι → Call
  len : ι → Nat

section tasks
variable {ι : Type} (v : Writers ι)

/-- The clusters of the file of a task: those of its chain and those it took. -/
def Owns (i : ι) (log : List Update) (c : Nat) : Prop :=
  (∃ k < v.len i, clusterAt v.fsbi (volume v.disk) (v.calls i).inode.firstCluster k = c) ∨
    .took c ∈ log

def current (log : List Update) (c : Nat) : Nat := (latest log c).getD (entry v.fsbi v.disk c)

/- The entries of its clusters are as it left them. -/
def View (i : ι) (log : List Update) (disk : Memory) : Prop :=
  ∀ c, Owns v i log c → InTable v.fsbi c ∧ entry v.fsbi disk c = current v log c

/-- Every task has its own clusters, they are in use, and it wrote no other entries. -/
structure Apart (disk : Memory) (logs : ι → List Update) : Prop where
  views : ∀ i, View v i (logs i) disk
  used : ∀ i c, Owns v i (logs i) c → current v (logs i) c ≠ 0
  written : ∀ i c value, latest (logs i) c = some value → Owns v i (logs i) c
  apart : ∀ i j c, i ≠ j → Owns v i (logs i) c → ¬ Owns v j (logs j) c

def Knows (i : ι) (log : List Update) : Part → Prop
  | .called call => call = v.calls i ∧ log = []
  | .create call _ => call = v.calls i ∧ call.inode.firstCluster = 0
  | .round call _ s =>
    HasEntry v.fsbi call.inode ∧ Owns v i log s.cluster ∧ Clear v.fsbi (s.target v.fsbi)
  | .extend call _ s =>
    HasEntry v.fsbi call.inode ∧ Owns v i log s.cluster ∧ Clear v.fsbi s.sector
  | .leave call _ => HasEntry v.fsbi call.inode
  | .done _ => True

def terms : Terms ι Part Update := ⟨Apart v, View v, Knows v⟩

/-- The files are in order, and each is written from a position in its chain on, or from its first
    cluster on where sector 0 begins a cluster's worth of sectors before the table. -/
structure Ready : Prop where
  layout : Layout v.fsbi
  order : InOrder v.fsbi (volume v.disk) (fun i => (v.calls i).inode) v.len
  entered : ∀ i, HasEntry v.fsbi (v.calls i).inode
  within : ∀ i, (v.calls i).inode.firstCluster ≠ 0 →
    (v.calls i).position / v.fsbi.bytesPerCluster < v.len i
  boot : ∀ i, (v.calls i).inode.firstCluster = 0 → Clear v.fsbi 0

variable {v}

section clusters
variable {disk disk' : Memory} {logs : ι → List Update} {i : ι}

theorem Apart.not_free (apart : Apart v disk logs) {a : Nat}
    (free : FirstFree v.fsbi (volume disk) a) (j : ι) : ¬ Owns v j (logs j) a := by
  intro own
  have used := apart.used j a own
  rw [← ((apart.views j) a own).2] at used
  exact used free.free

theorem Apart.unseen (apart : Apart v disk logs) {foreign : Nat → Prop} {j : ι}
    (theirs : ∀ c, foreign c → ¬ Owns v j (logs j) c)
    (same : ∀ c, InTable v.fsbi c → ¬ foreign c → entry v.fsbi disk' c = entry v.fsbi disk c) :
    View v j (logs j) disk' := by
  intro c own
  obtain ⟨inside, value⟩ := apart.views j c own
  exact ⟨inside, (same c inside fun here => theirs c here own).trans value⟩

variable [DecidableEq ι]

/-- A task that links a free cluster behind one of its own, or takes it as its first. -/
theorem Apart.taken (apart : Apart v disk logs) {a c : Nat} {log : List Update}
    (free : FirstFree v.fsbi (volume disk) a) (some_cluster : a ≠ 0)
    (behind : Owns v i (logs i) c ∨ c = a)
    (linked : Linked v.fsbi (volume disk) (volume disk') c a)
    (owned : ∀ d, Owns v i log d ↔ Owns v i (logs i) d ∨ d = a)
    (values : ∀ d, latest log d =
      if d = a then some endMark else if d = c then some a else latest (logs i) d) :
    Apart v disk' (Function.update logs i log) := by
  have new := apart.not_free free
  have now : ∀ d, current v log d =
      if d = a then endMark else if d = c then a else current v (logs i) d := by
    intro d
    unfold current
    rw [values]
    split
    · rfl
    · split
      · rfl
      · rfl
  have theirs : ∀ j, j ≠ i → ∀ d, d = a ∨ d = c → ¬ Owns v j (logs j) d := by
    intro j other d which own
    rcases which with here | here
    · exact new j (here ▸ own)
    · rcases behind with mine | same
      · exact apart.apart j i c other (here ▸ own) mine
      · exact new j (same ▸ here ▸ own)
  refine ⟨fun j => ?_, fun j d => ?_, fun j d value => ?_, fun j k d differ => ?_⟩
  · by_cases here : j = i
    · rw [here, Function.update_self]
      intro d own
      have inside : InTable v.fsbi d := by
        rcases (owned d).mp own with old | last
        · exact (apart.views i d old).1
        · rw [last]
          exact free.in_table
      refine ⟨inside, ?_⟩
      have value := linked d inside
      rw [now, entry, value]
      by_cases last : d = a
      · rw [if_pos last, if_pos last]
      · rw [if_neg last, if_neg last]
        by_cases before : d = c
        · rw [if_pos before, if_pos before]
        · rw [if_neg before, if_neg before]
          exact (apart.views i d (((owned d).mp own).resolve_right last)).2
    · rw [Function.update_of_ne here]
      refine apart.unseen (theirs j here) fun d inside other => ?_
      have value := linked d inside
      rw [if_neg fun last => other (Or.inl last), if_neg fun before => other (Or.inr before)] at value
      exact value
  · by_cases here : j = i
    · rw [here, Function.update_self, now]
      intro own
      split
      · decide
      · next old =>
        split
        · exact some_cluster
        · exact apart.used i d (((owned d).mp own).resolve_right old)
    · rw [Function.update_of_ne here]
      exact apart.used j d
  · by_cases here : j = i
    · rw [here, Function.update_self, values, owned]
      split
      · next last => exact fun _ => Or.inr last
      · split
        · next before => exact fun _ => before ▸ behind
        · exact fun wrote => Or.inl (apart.written i d value wrote)
    · rw [Function.update_of_ne here]
      exact apart.written j d value
  · by_cases here : j = i
    · have other : k ≠ i := fun same => differ (here.trans same.symm)
      rw [here, Function.update_self, Function.update_of_ne other, owned]
      intro own
      rcases own with old | last
      · exact apart.apart i k d (here ▸ differ) old
      · exact theirs k other d (Or.inl last)
    · rw [Function.update_of_ne here]
      by_cases there : k = i
      · rw [there, Function.update_self, owned]
        intro own own'
        rcases own' with old | last
        · exact apart.apart j i d here own old
        · exact theirs j here d (Or.inl last) own
      · rw [Function.update_of_ne there]
        exact apart.apart j k d differ

end clusters

/- The sectors a task may write at any time. -/
def Off (fsbi : SbInfo) (sector count : Nat) : Prop := ∀ k < count, ¬ TableSector fsbi (sector + k)

theorem entry_off (layout : Layout v.fsbi) {inode : IndexNode} (entered : HasEntry v.fsbi inode) :
    Always Anything (Off v.fsbi) (fat32WriteInode v.fsbi inode) fun _ => True := by
  refine inode_allowed fun some_entry => ?_
  have valid := entered.resolve_left some_entry
  exact clear_cluster layout valid.data (valid_small valid)

theorem follows_walk {i : ι} {first len n k : Nat}
    (own : ∀ l < len, Owns v i [] (clusterAt v.fsbi (volume v.disk) first l))
    (within : k + n < len) :
    Follows (TableSector v.fsbi) (View v i [])
      (walkChain v.fsbi n (clusterAt v.fsbi (volume v.disk) first k)) fun cluster =>
        cluster = clusterAt v.fsbi (volume v.disk) first (k + n) := by
  induction n generalizing k with
  | zero => rfl
  | succ n ih =>
    simp only [walkChain, DISK1FAT32ReadFATEntry, follows_bind, follows_readSectors, follows_pure]
    intro shown view
    have link := (view _ (own k (by omega))).2
    have next : entry v.fsbi shown (clusterAt v.fsbi (volume v.disk) first k) =
        clusterAt v.fsbi (volume v.disk) first (k + 1) := by
      rw [link, clusterAt_succ]
      rfl
    have rest := ih (k := k + 1) (by omega)
    rw [← next, Nat.add_right_comm, Nat.add_assoc] at rest
    exact rest

theorem follows_walkChain {i : ι} {first len n : Nat}
    (own : ∀ l < len, Owns v i [] (clusterAt v.fsbi (volume v.disk) first l)) (within : n < len) :
    Follows (TableSector v.fsbi) (View v i []) (walkChain v.fsbi n first) fun cluster =>
      cluster = clusterAt v.fsbi (volume v.disk) first n := by
  have walked := follows_walk own (k := 0) (n := n) (by omega)
  rw [Nat.zero_add] at walked
  exact walked

theorem off_tables {fsbi : SbInfo} : ∀ sector count, Off fsbi sector count →
    ∀ k < count, ¬ TableSector fsbi (sector + k) := fun _ _ off => off

theorem follows_round {i : ι} {log : List Update} {call : Call} {fuel : Nat} {s : Writing}
    (knows : Knows v i log (.round call (fuel + 1) s)) :
    Follows (TableSector v.fsbi) (View v i log) (writeRound v.fsbi call fuel s) fun next =>
      reported (.round call (fuel + 1) s) next = [] ∧ Knows v i log next := by
  obtain ⟨entered, own, clear⟩ := knows
  simp only [writeRound, follows_bind]
  refine follows_mono (follows_of_always off_tables (load_allowed s)) fun loaded made => ?_
  cases loaded with
  | none => exact ⟨rfl, entered⟩
  | some m =>
    obtain ⟨buffer, rfl⟩ := made m rfl
    simp only [follows_bind]
    refine follows_mono (follows_of_always off_tables (copyIn_kept _ _ _ _)) fun data _ => ?_
    rw [follows_writeSectors]
    refine ⟨clear, ?_⟩
    rw [if_neg (by decide)]
    split
    · exact ⟨rfl, entered⟩
    · simp only [DISK1FAT32ReadFATEntry, follows_bind, follows_readSectors, follows_pure]
      intro shown _
      split
      · exact ⟨rfl, entered, own, clear⟩
      · refine ⟨rfl, entered, own, ?_⟩
        rw [← @target_behind v.fsbi s (pieceLength v.fsbi s.index s.offset) data] at clear
        exact clear

theorem follows_leave (layout : Layout v.fsbi) {i : ι} {log : List Update} {call : Call}
    {leave : Leave} (knows : Knows v i log (.leave call leave)) :
    Follows (TableSector v.fsbi) (View v i log) (code v.fsbi (.leave call leave)) fun next =>
      reported (.leave call leave) next = [] ∧ Knows v i log next := by
  cases leave with
  | full position => exact ⟨rfl, trivial⟩
  | done last =>
    simp only [code]
    split
    · rw [follows_bind]
      exact follows_mono (follows_of_always off_tables (entry_off layout knows)) fun _ _ =>
        ⟨rfl, trivial⟩
    · exact ⟨rfl, trivial⟩

theorem knows_first {i : ι} {log : List Update} {call : Call} {cluster : Nat} {flags : Bool}
    {buffer : Memory} (entered : HasEntry v.fsbi call.inode) (own : Owns v i log cluster)
    (clear : Clear v.fsbi (if flags then 0 else clusterSector v.fsbi cluster)) :
    Knows v i log (firstRound v.fsbi call cluster flags buffer) := by
  unfold firstRound
  generalize toInt32 (call.count : Int) = index
  exact ⟨entered, own, clear⟩

theorem reported_called (call : Call) (next : Part) : reported (.called call) next = [] := rfl

theorem follows_called (ready : Ready v) {i : ι} {log : List Update} {call : Call}
    (knows : Knows v i log (.called call)) :
    Follows (TableSector v.fsbi) (View v i log) (code v.fsbi (.called call)) fun next =>
      reported (.called call) next = [] ∧ Knows v i log next := by
  obtain ⟨rfl, rfl⟩ := knows
  have some_bytes := ready.layout.mounted.some_bytes
  simp only [code, if_neg (by omega : ¬ v.fsbi.bytesPerCluster = 0), follows_bind, follows_alloc]
  intro buffer
  by_cases empty : (v.calls i).inode.firstCluster = 0
  · rw [if_pos empty]
    exact ⟨rfl, rfl, empty⟩
  · rw [if_neg empty, follows_bind]
    have chain := (ready.order.chain i empty).1
    have within := ready.within i empty
    have short := chain_short chain
    have countable : Countable v.fsbi (v.calls i).position := by
      unfold Fat32.Countable
      omega
    rw [links_eq countable, Int.toNat_natCast]
    have own : ∀ l < v.len i, Owns v i []
        (clusterAt v.fsbi (volume v.disk) (v.calls i).inode.firstCluster l) :=
      fun l less => Or.inl ⟨l, less, rfl⟩
    refine follows_mono (follows_walkChain own within) fun cluster at_ => ?_
    have valid := chain.valid _ within
    rw [← at_] at valid
    have data := valid.data
    rw [if_neg (by omega : ¬ cluster = 0), follows_pure]
    refine ⟨reported_called _ _, knows_first (ready.entered i) (Or.inl ⟨_, within, at_.symm⟩) ?_⟩
    rw [if_neg Bool.false_ne_true]
    exact clear_cluster ready.layout valid.data (valid_small valid)

section exclusive
variable {i : ι} {logs : ι → List Update} {disk : Memory} {call : Call}

/- What others see while a task is taking a cluster. -/
def Others (v : Writers ι) (logs : ι → List Update) (i : ι) (disk : Memory) : Prop :=
  ∀ j, j ≠ i → View v j (logs j) disk

theorem view_agree (layout : Layout v.fsbi) {j : ι} {log : List Update} {disk' : Memory}
    (same : Agree (TableSector v.fsbi) disk disk') (view : View v j log disk) :
    View v j log disk' := by
  intro c own
  obtain ⟨inside, value⟩ := view c own
  exact ⟨inside, (entry_agree layout same inside).trans value⟩

theorem Apart.agree (layout : Layout v.fsbi) {disk' : Memory}
    (same : Agree (TableSector v.fsbi) disk disk') (apart : Apart v disk logs) :
    Apart v disk' logs :=
  ⟨fun j => view_agree layout same (apart.views j), apart.used, apart.written, apart.apart⟩

theorem Apart.others (apart : Apart v disk logs) {foreign : Nat → Prop}
    (theirs : ∀ c, foreign c → ∀ j, j ≠ i → ¬ Owns v j (logs j) c) {shown : Memory}
    (same : ∀ c, InTable v.fsbi c → ¬ foreign c → entry v.fsbi shown c = entry v.fsbi disk c) :
    Others v logs i shown :=
  fun j other => apart.unseen (fun c here => theirs c here j other) same

theorem owns_took (log : List Update) (a c : Nat) :
    Owns v i (.took a :: log) c ↔ Owns v i log c ∨ c = a := by
  unfold Owns
  rw [List.mem_cons, Update.took.injEq, or_assoc]
  exact or_congr_right or_comm

theorem owns_wrote (log : List Update) (e value c : Nat) :
    Owns v i (.wrote e value :: log) c ↔ Owns v i log c := by
  unfold Owns
  rw [List.mem_cons]
  simp

theorem reported_first (buffer buffer' : Memory) (made : Call) (a : Nat) :
    reported (.create call buffer) (firstRound v.fsbi made a true buffer') =
      [.wrote a endMark, .took a] := by
  unfold firstRound
  generalize toInt32 (made.count : Int) = index
  rfl

variable [DecidableEq ι]

theorem unreported (apart : Apart v disk logs) :
    Apart v disk (Function.update logs i ([] ++ logs i)) := by
  rw [List.nil_append, Function.update_eq_self]
  exact apart

theorem holds_create (ready : Ready v) {buffer : Memory}
    (knows : Knows v i (logs i) (.create call buffer)) (apart : Apart v disk logs) :
    Holds (TableSector v.fsbi) (Others v logs i) (code v.fsbi (.create call buffer)) disk
      fun next disk' =>
        Apart v disk' (Function.update logs i (reported (.create call buffer) next ++ logs i)) ∧
          Knows v i (reported (.create call buffer) next ++ logs i) next := by
  obtain ⟨rfl, empty⟩ := knows
  have layout := ready.layout
  simp only [code, holds_bind]
  refine holds_mono (holds_findAvailable layout (Nat.zero_add _) fun c less => by omega) ?_
  intro a found_disk found
  rw [found.1]
  by_cases full : a = 0
  · rw [if_pos full]
    exact ⟨unreported apart, trivial⟩
  · have taken := found.2.resolve_left full
    have entered : HasEntry v.fsbi { (v.calls i).inode with firstCluster := a } := ready.entered i
    rw [if_neg full, holds_bind]
    have unowned : ∀ c, c = a → ∀ j, j ≠ i → ¬ Owns v j (logs j) c := by
      intro c same j _
      rw [same]
      exact apart.not_free taken j
    refine holds_mono (holds_of_always off_tables (fun d e same fine j other =>
      view_agree layout same (fine j other)) (fun j _ => apart.views j)
      (entry_off layout entered)) fun _ disk₁ entry_written => ?_
    have still := apart.agree layout entry_written.1
    have free : FirstFree v.fsbi (volume disk₁) a := firstFree_congr taken fun c inside =>
      entry_agree layout entry_written.1 inside
    rw [holds_bind]
    refine holds_mono (holds_writeFATEntry layout taken.in_table 0x0ffffff8 fun shown same =>
      still.others unowned fun c inside other => same c inside other) fun _ disk₂ marked => ?_
    rw [holds_pure, reported_first]
    refine ⟨still.taken free full (Or.inr rfl) (fun d inside => ?_) (fun d => ?_) fun d => ?_,
      knows_first entered ?_ (ready.boot i empty)⟩
    · have value := marked d inside
      unfold entry at value
      rw [value]
      split
      · rfl
      · rfl
    · rw [List.cons_append, List.cons_append, List.nil_append, owns_wrote, owns_took]
    · rw [List.cons_append, List.cons_append, List.nil_append, latest, latest]
      split
      · rfl
      · rfl
    · rw [List.cons_append, List.cons_append, List.nil_append, owns_wrote, owns_took]
      exact Or.inr rfl

theorem holds_extend (layout : Layout v.fsbi) {fuel : Nat} {s : Writing}
    (knows : Knows v i (logs i) (.extend call fuel s)) (apart : Apart v disk logs) :
    Holds (TableSector v.fsbi) (Others v logs i) (code v.fsbi (.extend call fuel s)) disk
      fun next disk' =>
        Apart v disk' (Function.update logs i (reported (.extend call fuel s) next ++ logs i)) ∧
          Knows v i (reported (.extend call fuel s) next ++ logs i) next := by
  obtain ⟨entered, own, clear⟩ := knows
  have in_table := (apart.views i _ own).1
  simp only [code, holds_bind]
  refine holds_mono (holds_extendChain layout in_table fun a free shown same => ?_) ?_
  · refine apart.others (fun c which j other => ?_)
      fun c inside neither => same c inside (fun old => neither (Or.inl old))
        fun new => neither (Or.inr new)
    rcases which with old | new
    · rw [old]
      exact fun theirs => apart.apart j i _ other theirs own
    · rw [new]
      exact apart.not_free free j
  · intro next disk' extended
    rcases extended with ⟨none_, same⟩ | ⟨a, free, some_cluster, made, linked⟩
    · rw [none_, same]
      exact ⟨unreported apart, entered⟩
    · rw [made, holds_pure]
      refine ⟨apart.taken free some_cluster (Or.inl own) linked (fun d => ?_) fun d => ?_, entered,
        ?_, ?_⟩
      · rw [reported, List.cons_append, List.cons_append, List.cons_append, List.nil_append,
          owns_wrote, owns_wrote, owns_took]
      · rw [reported, List.cons_append, List.cons_append, List.cons_append, List.nil_append,
          latest, latest, latest]
      · rw [reported, List.cons_append, List.cons_append, List.cons_append, List.nil_append,
          owns_wrote, owns_wrote, owns_took]
        exact Or.inr rfl
      · rw [Writing.target, if_pos rfl]
        exact clear

/-- FAT32_write keeps to the terms. -/
theorem write_contract (ready : Ready v) :
    Contract (fat32Write v.fsbi) (TableSector v.fsbi) (terms v) := by
  have layout := ready.layout
  refine ⟨fun disk disk' logs same apart => apart.agree layout same,
    fun j log disk disk' same view => view_agree layout same view,
    fun disk logs apart => apart.views, fun j log part calm knows => ?_,
    fun j logs part disk taking knows apart => ?_⟩
  · cases part with
    | called call => exact follows_called ready knows
    | create call buffer => cases calm
    | round call fuel s =>
      cases fuel with
      | zero => trivial
      | succ fuel => exact follows_round knows
    | extend call fuel s => cases calm
    | leave call leave => exact follows_leave layout knows
    | done result => exact ⟨rfl, trivial⟩
  · cases part with
    | called call => cases taking
    | create call buffer => exact holds_create ready knows apart
    | round call fuel s => cases taking
    | extend call fuel s => exact holds_extend layout knows apart
    | leave call leave => cases taking
    | done result => cases taking

end exclusive

def Writers.begin (v : Writers ι) (memory : ι → Memory) (fresh : ι → List Memory) :
    State ι Part Update :=
  ⟨v.disk, fun i => ⟨.called (v.calls i), code v.fsbi (.called (v.calls i)), memory i, fresh i, []⟩⟩

def finished : Part → Bool
  | .done _ => true
  | _ => false

def Finished (s : State ι Part Update) : Prop := ∀ i, finished (s.tasks i).part = true

/-- No two tasks took the same cluster, and every entry holds what was last written to it. -/
def Untangled (fsbi : SbInfo) (s : State ι Part Update) : Prop :=
  (∀ i j c, i ≠ j → .took c ∈ s.logs i → ¬ .took c ∈ s.logs j) ∧
    ∀ i c value, latest (s.logs i) c = some value → entry fsbi s.disk c = value

theorem Apart.untangled {s : State ι Part Update} (apart : Apart v s.disk s.logs) :
    Untangled v.fsbi s := by
  refine ⟨fun i j c differ taken taken' => ?_, fun i c value wrote => ?_⟩
  · exact apart.apart i j c differ (Or.inr taken) (Or.inr taken')
  · have own := apart.written i c value wrote
    rw [(apart.views i c own).2, current, wrote]
    rfl

theorem begin_apart (ready : Ready v) : Apart v v.disk fun _ => [] := by
  have chain : ∀ i, ∀ k < v.len i,
      InTable v.fsbi (clusterAt v.fsbi (volume v.disk) (v.calls i).inode.firstCluster k) ∧
        entry v.fsbi v.disk
          (clusterAt v.fsbi (volume v.disk) (v.calls i).inode.firstCluster k) ≠ 0 := by
    intro i k less
    obtain ⟨chain, used⟩ := ready.order.used less
    exact ⟨(chain.valid k less).in_table, used⟩
  refine ⟨fun i c own => ?_, fun i c own => ?_, fun i c value wrote => ?_,
    fun i j c differ own own' => ?_⟩
  · rcases own with ⟨k, less, here⟩ | took
    · rw [← here]
      exact ⟨(chain i k less).1, rfl⟩
    · cases took
  · rcases own with ⟨k, less, here⟩ | took
    · rw [← here]
      exact (chain i k less).2
    · cases took
  · cases wrote
  · rcases own with ⟨k, less, here⟩ | took
    · rcases own' with ⟨l, less', here'⟩ | took
      · exact ready.order.apart i j differ k less l less' (here.trans here'.symm)
      · cases took
    · cases took

variable [DecidableEq ι]

/-- Tasks that write different files, in any order of their transfers in which no two of them are
    taking clusters at the same time. -/
theorem updates_untangled (ready : Ready v) {memory : ι → Memory} {fresh : ι → List Memory}
    {t : State ι Part Update} {es : List ι}
    (ran : Steps (Meeting (fun _ _ t => Alone (fat32Write v.fsbi) t) (Step (fat32Write v.fsbi)))
      (v.begin memory fresh) es t) (all : Finished t) : Untangled v.fsbi t := by
  have contract := write_contract ready
  have start : Sound (fat32Write v.fsbi) (TableSector v.fsbi) (terms v) (v.begin memory fresh) :=
    Sound.start contract (fun _ => rfl) (fun _ => rfl) (fun _ => ⟨rfl, rfl⟩) (begin_apart ready)
  have sound := start.run contract ran
  have apart : Apart v t.disk t.logs := sound.inv fun i => by
    have done := all i
    cases part : (t.tasks i).part with
    | done result => rfl
    | _ =>
      rw [part] at done
      cases done
  exact apart.untangled

end tasks

instance (parts : Parts Part Update) (s : State Bool Part Update) : Decidable (Alone parts s) :=
  inferInstanceAs (Decidable (∀ i j, parts.exclusive (s.tasks i).part = true →
    parts.exclusive (s.tasks j).part = true → i = j))

/- A step behind which at most one task takes a cluster. -/
def nextAlone (fsbi : SbInfo) (s : State Bool Part Update) (i : Bool) :
    Option (State Bool Part Update) :=
  (s.next (fat32Write fsbi) i).filter fun t => decide (Alone (fat32Write fsbi) t)

def twoFiles : Writers Bool where
  fsbi := oneSectorVolume
  disk := markedDisk
  calls second := ⟨⟨0, 0, 2, if second then 1 else 2⟩, 4096, 1, 0⟩
  len _ := 0

theorem empty_order {ι : Type} {fsbi : SbInfo} {w : World} {files : ι → IndexNode}
    (empty : ∀ i, (files i).firstCluster = 0) (sizes : ∀ i, (files i).fileSize = 0) :
    InOrder fsbi w files fun _ => 0 where
  chain i begun := absurd (empty i) begun
  bare _ _ := rfl
  inside _ k less := absurd less (Nat.not_lt_zero k)
  apart _ _ _ k less := absurd less (Nat.not_lt_zero k)
  room i := by rw [sizes, Nat.zero_mul]

theorem twoFiles_ready : Ready twoFiles where
  layout := oneSector_layout
  order := empty_order (fun _ => rfl) fun _ => rfl
  entered _ := Or.inr (readme_valid (by decide : 2 ≤ 2) (by decide : 2 < 128))
  within i begun := absurd rfl begun
  boot := by
    intro i _ k less table
    have first := table.1
    dsimp only [twoFiles, oneSectorVolume] at first less
    omega

def twoTasks : State Bool Part Update := twoFiles.begin (fun _ => zeros) fun _ => []

def inTurn : List Bool :=
  [false, true] ++ List.replicate 10 true ++ (List.replicate 20 [true, false]).flatten

theorem updates_untangled_two : ∃ t, exec (nextAlone oneSectorVolume) twoTasks inTurn = some t ∧
    Finished t ∧ Untangled oneSectorVolume t := by
  have left : (exec (nextAlone oneSectorVolume) twoTasks inTurn).map
      (fun t => (finished (t.tasks false).part, finished (t.tasks true).part)) =
        some (true, true) := by decide +kernel
  obtain ⟨t, ran, left⟩ := Option.map_eq_some_iff.mp left
  simp only [Prod.mk.injEq] at left
  have all : Finished t := by
    intro i
    cases i with
    | false => exact left.1
    | true => exact left.2
  refine ⟨t, ran, all, updates_untangled twoFiles_ready (steps_mono ?_ (steps_of_exec ran)) all⟩
  intro s i t step
  obtain ⟨step, alone⟩ := Option.filter_eq_some_iff.mp step
  exact ⟨step, of_decide_eq_true alone⟩

/- Each searches the table before the other has marked what it found. -/
theorem same_cluster_taken : ¬ ∀ (v : Writers Bool) (memory : Bool → Memory)
    (fresh : Bool → List Memory) (t : State Bool Part Update) (es : List Bool), Ready v →
      Steps (Step (fat32Write v.fsbi)) (v.begin memory fresh) es t → Finished t →
        Untangled v.fsbi t := by
  intro claim
  have left : (exec (fun s i => s.next (fat32Write oneSectorVolume) i) twoTasks
      (List.replicate 30 [true, false]).flatten).map (fun t =>
        (finished (t.tasks false).part, finished (t.tasks true).part,
          decide (.took 4 ∈ t.logs false), decide (.took 4 ∈ t.logs true))) =
      some (true, true, true, true) := by decide +kernel
  obtain ⟨t, ran, left⟩ := Option.map_eq_some_iff.mp left
  simp only [Prod.mk.injEq, decide_eq_true_eq] at left
  obtain ⟨first, second, took, took'⟩ := left
  have all : Finished t := by
    intro i
    cases i with
    | false => exact first
    | true => exact second
  have different := (claim twoFiles _ _ t _ twoFiles_ready (steps_of_exec ran) all).1
  exact different false true 4 (by decide) took took'

end InterleavedWrites

import Q2os.Descriptors
import Q2os.TableSupply

/- The position of an open file against its size, over the calls on its descriptor. -/
namespace FilePosition
open ByteMemory BlockProgram Fat32 NameMatching OpenFiles UserPointers Descriptors Run

variable {α : Type}

theorem always_all {p : Prog α} {post : α → Prop} (all : ∀ a, post a) :
    Always Anything Anything p post := by
  induction p with
  | ret value => exact all value
  | readSectors sector count next ih => exact fun reply => ih reply
  | writeSectors sector count data next ih => exact ⟨trivial, fun done => ih done⟩
  | load addr size next ih => exact ⟨trivial, fun memory => ih memory⟩
  | store addr size data next ih => exact ⟨trivial, ih⟩
  | alloc next ih => exact fun block => ih block
  | fault => trivial

theorem run_post {p : Prog α} {post : α → Prop} {w w' : World} {a : α}
    (every : Always Anything Anything p post) (ran : run p w = some (a, w')) : post a :=
  (run_always every ran (fun _ _ => trivial) fun _ _ => trivial).1

structure Between (position index reached : Int) : Prop where
  low : min position (position + index) ≤ reached
  high : reached ≤ max position (position + index)

theorem between_start (position index : Int) : Between position index position :=
  ⟨by omega, by omega⟩

theorem between_end (position index : Int) : Between position index (position + index) :=
  ⟨by omega, by omega⟩

theorem between_more {position index reached : Int} {room : Nat} (more : ¬ index ≤ room)
    (rest : Between (position + room) (index - room) reached) : Between position index reached := by
  have low := rest.low
  have high := rest.high
  exact ⟨by omega, by omega⟩

/-- 0 <= position <= file_size, the size a long. -/
structure InFile (inode : IndexNode) (position : Int) : Prop where
  low : 0 ≤ position
  high : position ≤ inode.fileSize
  long : inode.fileSize < 2 ^ 63

/-- Entries for all the ends of clusters that a write crosses, or few enough for it to stop in the
    file. -/
def Lasts (fsbi : SbInfo) (inode : IndexNode) (position index : Int) (entries : Nat) : Prop :=
  crossings fsbi (position.tmod fsbi.bytesPerCluster) index ≤ entries ∨
    position + roomAt fsbi position + (entries : Int) * fsbi.bytesPerCluster ≤ inode.fileSize

/-- What the table can give to a write that crosses ends of clusters: where the file has no cluster
    yet its data go to the first sectors of the volume, and it takes one entry before. -/
def Backed (fsbi : SbInfo) (w : World) (inode : IndexNode) (position index : Int) : Prop :=
  if inode.firstCluster = 0 then
    usable fsbi w = 0 ∨ Lasts fsbi inode position index (usable fsbi w - 1) ∧
      fsbi.sectorPerCluster ≤ fsbi.FAT1Firstsector ∧
      (inode.dentryLocation = 0 ∨ 2 ≤ inode.dentryLocation ∧ inode.dentryLocation < 2 ^ 28)
  else
    let links := toInt32 (position.tdiv fsbi.bytesPerCluster)
    let cluster := clusterAt fsbi w inode.firstCluster links.toNat
    cluster = 0 ∨ Valid fsbi cluster ∧ (endMark ≤ fatEntry fsbi w cluster →
      Lasts fsbi inode position index (usable fsbi w))

/-- The position a write comes to is one of the file, and the write does not stop for lack of a
    free entry behind the end of the file. -/
structure WriteFits (fsbi : SbInfo) (w : World) (inode : IndexNode) (position index : Int) :
    Prop where
  forward : 0 ≤ position + index
  long : position + index < 2 ^ 63
  room : position + index ≤ inode.fileSize ∨
    crossings fsbi (position.tmod fsbi.bytesPerCluster) index = 0 ∨
    Backed fsbi w inode position index

def leftAt : Leave → Int
  | .done last => last.position
  | .full position => position

section loops
variable {fsbi : SbInfo}

theorem read_between (mounted : Mounted fsbi) {fuel cluster buf room : Nat}
    {index offset position : Int} (h : Room fsbi offset room) :
    Always Anything Anything (readPieces fsbi fuel cluster index offset buf position) fun last =>
      Between position index last.position := by
  induction fuel generalizing cluster index offset buf position room with
  | zero => trivial
  | succ fuel ih =>
    simp only [readPieces, always_bind, always_readSectors]
    intro reply
    cases reply with
    | none => exact between_start position index
    | some sectors =>
      simp only [always_bind]
      apply always_all
      intro _
      by_cases last : index ≤ room
      · simp only [pieceLength_last h last, Int.sub_self, ↓reduceIte]
        exact between_end position index
      · have unfinished : ¬ index - room = 0 := by omega
        simp only [pieceLength_more mounted h last, if_neg unfinished, always_bind]
        apply always_all
        intro next
        split
        · exact between_more last (between_start _ _)
        · exact always_mono (ih (room_whole mounted)) fun _ rest => between_more last rest

theorem written_between (mounted : Mounted fsbi) {fuel room : Nat} {s : Writing}
    (h : Room fsbi s.offset room) :
    Always Anything Anything (writePieces fsbi fuel s) fun leave =>
      Between s.position s.index (leftAt leave) := by
  induction fuel generalizing s room with
  | zero => trivial
  | succ fuel ih =>
    have body : ∀ m : Writing, m.offset = s.offset → m.index = s.index → m.position = s.position →
        Always Anything Anything (writePiece fsbi (writePieces fsbi fuel) m) fun leave =>
          Between s.position s.index (leftAt leave) := by
      intro m offset index position
      simp only [writePiece, always_bind, offset, index]
      apply always_all
      intro buffer
      rw [always_writeSectors]
      refine ⟨trivial, fun written => ?_⟩
      split
      · rw [always_pure, Writing.failed, leftAt, position]
        exact between_start _ _
      · by_cases last : s.index ≤ room
        · simp only [pieceLength_last h last, Writing.past, index, Int.sub_self, ↓reduceIte,
            always_pure, leftAt, position]
          exact between_end _ _
        · have unfinished : ¬ s.index - room = 0 := by omega
          have next : ∀ m' : Writing, m'.offset = 0 → m'.index = s.index - room →
              m'.position = s.position + room →
              Always Anything Anything (writePieces fsbi fuel m') fun leave =>
                Between s.position s.index (leftAt leave) := by
            intro m' offset index position
            have rest := @ih fsbi.bytesPerCluster m' (offset ▸ room_whole mounted)
            rw [index, position] at rest
            exact always_mono rest fun _ rest => between_more last rest
          simp only [pieceLength_more mounted h last, Writing.past, index, if_neg unfinished,
            always_bind, position]
          apply always_all
          intro entry
          split
          · simp only [extendChain, always_bind]
            apply always_all
            intro free
            split
            · exact between_more last (between_start _ _)
            · simp only [always_bind]
              apply always_all
              intro _
              apply always_all
              intro _
              exact next _ rfl rfl rfl
          · exact next _ rfl rfl rfl
    simp only [writePieces, loadCluster]
    split
    · simp only [always_bind, always_pure]
      exact body s rfl rfl rfl
    · simp only [always_bind, always_readSectors, always_pure]
      intro reply
      cases reply with
      | none =>
        rw [Option.map_none, always_pure, Writing.failed, leftAt]
        exact between_start _ _
      | some sectors => exact body _ rfl rfl rfl

theorem index_of_crossings {offset index : Int} {room : Nat} (h : Room fsbi offset room)
    (none_crossed : crossings fsbi offset index = 0) : index ≤ room := by
  by_contra more
  rw [crossings_more h more] at none_crossed
  omega

theorem finish_inside {inode : IndexNode} {position reached retval : Int}
    (inside : InFile inode position) (low : 0 ≤ reached) (long : reached < 2 ^ 63) :
    Always Anything Anything (if (reached % 2 ^ 64).toNat > inode.fileSize then do
        let inode := { inode with fileSize := (reached % 2 ^ 64).toNat }
        fat32WriteInode fsbi inode
        return (retval, inode, reached)
      else return (retval, inode, reached)) fun r => InFile r.2.1 r.2.2 := by
  have size := inside.long
  split
  · simp only [always_bind]
    apply always_all
    intro _
    rw [always_pure]
    constructor
    · exact low
    · dsimp only
      omega
    · dsimp only
      omega
  · rw [always_pure]
    constructor
    · exact low
    · dsimp only
      omega
    · exact size

/- What sends the loop to its end, or keeps it in the file. -/
def Ends (fsbi : SbInfo) (w : World) (inode : IndexNode) (s : Writing) (room : Nat) : Prop :=
  s.position + s.index ≤ inode.fileSize ∨ crossings fsbi s.offset s.index = 0 ∨
    Steady fsbi s ∧ (endMark ≤ fatEntry fsbi w s.cluster →
      crossings fsbi s.offset s.index ≤ usable fsbi w ∨
        s.position + room + (usable fsbi w : Int) * fsbi.bytesPerCluster ≤ inode.fileSize)

theorem left_full (layout : Layout fsbi) {fuel room : Nat} {s : Writing} {w w' : World}
    {inode : IndexNode} {full : Int} (h : Room fsbi s.offset room)
    (started : s.position ≤ inode.fileSize) (ends : Ends fsbi w inode s room)
    (ran : run (writePieces fsbi (fuel + 1) s) w = some (.full full, w')) :
    full ≤ inode.fileSize := by
  rcases ends with inside | single | ⟨steady, lasts⟩
  · have between := run_post (@written_between fsbi layout.mounted _ _ _ h) ran
    exact Int.le_trans between.high (Int.max_le.mpr ⟨started, inside⟩)
  · have done := single_done layout.mounted h (index_of_crossings h single) ran
    cases done
  · rcases loop_leaves layout h steady ran with done | ⟨marked, few, stopped⟩
    · cases done
    · cases stopped
      rcases lasts marked with enough | inside
      · exact absurd enough (Nat.not_le.mpr few)
      · exact inside

theorem writeAt_inside (layout : Layout fsbi) {inode : IndexNode} {cluster buf count : Nat}
    {flags : Bool} {buffer : Memory} {position index : Int} {w w' : World}
    {r : Int × IndexNode × Int} (int : toInt32 count = index)
    (inside : InFile inode position) (forward : 0 ≤ position + index)
    (long : position + index < 2 ^ 63)
    (ends : Ends fsbi w inode ⟨cluster, 0, flags, index,
      position.tmod fsbi.bytesPerCluster, buf, buffer, position⟩ (roomAt fsbi position))
    (ran : run (writeAt fsbi inode cluster flags buffer buf count position) w = some (r, w')) :
    InFile r.2.1 r.2.2 := by
  have low := inside.low
  have high := inside.high
  have size := inside.long
  have room := room_at layout.mounted low
  simp only [writeAt, int, run_bind] at ran
  obtain ⟨⟨leave, w₁⟩, loop, ran⟩ := Option.bind_eq_some_iff.mp ran
  have between := run_post (@written_between fsbi layout.mounted _ _ _ room) loop
  have lowest := between.low
  have highest := between.high
  cases leave with
  | full full =>
    have stays := left_full layout room high ends loop
    cases ran
    dsimp only [leftAt] at lowest highest stays ⊢
    exact ⟨by omega, by omega, size⟩
  | done last =>
    dsimp only [leftAt] at lowest highest
    exact @run_post _ _ (fun r : Int × IndexNode × Int => InFile r.2.1 r.2.2) _ _ _
      (finish_inside inside (by omega) (by omega)) ran

theorem clear_cluster (layout : Layout fsbi) {cluster : Nat} (data : 2 ≤ cluster)
    (small : cluster < 2 ^ 28) : Clear fsbi (clusterSector fsbi cluster) := by
  intro i _
  have apart := @cluster_not_table fsbi layout cluster (512 * i) data small
  have place : (512 * clusterSector fsbi cluster + 512 * i) / 512 =
      clusterSector fsbi cluster + i := by omega
  rwa [place] at apart

theorem putEntry_tables (layout : Layout fsbi) {inode : IndexNode} {w w' : World}
    (place : inode.dentryLocation = 0 ∨ 2 ≤ inode.dentryLocation ∧ inode.dentryLocation < 2 ^ 28)
    (disk : w'.disk = putEntry fsbi inode w.disk) : SameTables fsbi w w' := by
  intro x table
  rw [disk]
  apply putEntry_outside layout
  rcases place with root | data
  · exact Or.inl root
  · right
    left
    have apart := @cluster_not_table fsbi layout _ 0 data.1 data.2
    have sector := clusterSector_eq layout data.1 data.2
    have tables := layout.tables
    unfold TableSector at table
    unfold entryByte
    omega

theorem first_steady (layout : Layout fsbi) {a : Nat} {s : Writing} {w w₁ w₂ : World}
    (not_first : a ≠ 0) (taken : FirstFree fsbi w a) (same : SameTables fsbi w w₁)
    (marked : Entered fsbi w₁ w₂ a 0x0ffffff8) (at_ : s.cluster = a) (target : s.target fsbi = 0)
    (low : fsbi.sectorPerCluster ≤ fsbi.FAT1Firstsector) :
    Steady fsbi s ∧ usable fsbi w₂ + 1 = usable fsbi w := by
  have entries : ∀ c, InTable fsbi c → fatEntry fsbi w₁ c = fatEntry fsbi w c :=
    fun c inside => fatEntry_frame layout same inside
  have zero_in := zero_in_table taken.in_table
  refine ⟨⟨at_ ▸ taken.in_table, at_ ▸ not_first, ?_⟩, usable_taken not_first taken ?_ ?_⟩
  · rw [target]
    intro i within
    unfold TableSector
    omega
  · rw [marked.entry 0 zero_in, if_neg (Ne.symm not_first), entries 0 zero_in]
    exact taken.first 0 (Nat.pos_of_ne_zero not_first)
  · intro c inside
    rw [marked.entry c inside]
    by_cases new : c = a
    · rw [if_pos new]
      simp [new]
    · rw [if_neg new, entries c inside]
      exact ⟨fun free => ⟨free, new⟩, fun free => free.1⟩

theorem usable_disk {w w' : World} (same : w'.disk = w.disk) : usable fsbi w' = usable fsbi w := by
  unfold usable freeEntries
  simp only [@fatEntry_disk fsbi _ _ same]

theorem backed_disk {inode : IndexNode} {position index : Int} {w w' : World}
    (same : w'.disk = w.disk) (backed : Backed fsbi w inode position index) :
    Backed fsbi w' inode position index := by
  unfold Backed at backed ⊢
  simp only [@fatEntry_disk fsbi _ _ same, @usable_disk fsbi _ _ same, @clusterAt_disk fsbi _ _ same]
  exact backed

theorem WriteFits.disk {inode : IndexNode} {position index : Int} {w w' : World}
    (fits : WriteFits fsbi w inode position index) (same : w'.disk = w.disk) :
    WriteFits fsbi w' inode position index := by
  refine ⟨fits.forward, fits.long, ?_⟩
  rcases fits.room with room | single | backed
  · exact Or.inl room
  · exact Or.inr (Or.inl single)
  · exact Or.inr (Or.inr (backed_disk same backed))

theorem write_first_inside (layout : Layout fsbi) {inode : IndexNode} {buf count : Nat}
    {position index : Int} {buffer : Memory} {w w' : World} {r : Int × IndexNode × Int}
    (int : toInt32 count = index) (inside : InFile inode position)
    (empty : inode.firstCluster = 0) (fits : WriteFits fsbi w inode position index)
    (ran : run (do
      let cluster ← FAT32FindAvailableCluster fsbi
      if cluster = 0 then return (-ENOSPC, inode, position)
      let inode := { inode with firstCluster := cluster }
      fat32WriteInode fsbi inode
      DISK1FAT32WriteFATEntry fsbi cluster 0x0ffffff8
      writeAt fsbi inode cluster true buffer buf count position) w = some (r, w')) :
    InFile r.2.1 r.2.2 := by
  rcases run_find_usable layout w with ⟨_, found⟩ | ⟨a, full, taken, found⟩
  · rw [run_bind, found, Option.bind_some, if_pos rfl] at ran
    cases ran
    exact inside
  rw [run_bind, found, Option.bind_some] at ran
  obtain ⟨started, made⟩ : ∃ started, started = { inode with firstCluster := a } := ⟨_, rfl⟩
  obtain ⟨w₁, put, disk, _⟩ := run_fat32WriteInode fsbi started w
  obtain ⟨w₂, marked, mark⟩ := run_writeFATEntry layout taken.in_table 0x0ffffff8 w₁
  have size : started.fileSize = inode.fileSize := by rw [made]
  have location : started.dentryLocation = inode.dentryLocation := by rw [made]
  have within : InFile started position :=
    ⟨inside.low, size ▸ inside.high, size ▸ inside.long⟩
  rw [if_neg full, ← made] at ran
  rw [run_bind, put, Option.bind_some, run_bind, marked, Option.bind_some] at ran
  refine writeAt_inside layout int within fits.forward fits.long ?_ ran
  rcases fits.room with room | single | backed
  · exact Or.inl (size ▸ room)
  · exact Or.inr (Or.inl single)
  · right
    right
    simp only [Backed, if_pos empty] at backed
    rcases backed with none_left | ⟨lasts, clear, place⟩
    · have used := taken.first 0 (Nat.pos_of_ne_zero full)
      unfold usable at none_left
      rw [if_neg used] at none_left
      have free := taken.free
      exact absurd free (Nat.count_iff_forall_not.mp none_left a taken.in_table)
    · have same := @putEntry_tables fsbi layout started w w₁ (location ▸ place) disk
      obtain ⟨steady, one_less⟩ := @first_steady fsbi layout a
        ⟨a, 0, true, index, position.tmod fsbi.bytesPerCluster, buf, buffer, position⟩ w w₁ w₂ full taken
        same mark rfl rfl clear
      refine ⟨steady, fun _ => ?_⟩
      rw [size]
      have rest : usable fsbi w - 1 = usable fsbi w₂ := by omega
      rw [rest] at lasts
      exact lasts

theorem next_steady (layout : Layout fsbi) {s : Writing} (valid : Valid fsbi s.cluster)
    (reads : s.flags = false) : Steady fsbi s := by
  have data := valid.data
  refine ⟨valid.in_table, by omega, ?_⟩
  rw [Writing.target, reads, if_neg Bool.false_ne_true]
  exact clear_cluster layout valid.data (valid_small valid)

theorem write_next_inside (layout : Layout fsbi) {inode : IndexNode} {buf count : Nat}
    {position index : Int} {buffer : Memory} {w w' : World} {r : Int × IndexNode × Int}
    (int : toInt32 count = index) (inside : InFile inode position)
    (started : inode.firstCluster ≠ 0) (fits : WriteFits fsbi w inode position index)
    (ran : run (do
      let cluster ← walkChain fsbi (toInt32 (position.tdiv fsbi.bytesPerCluster)).toNat
        inode.firstCluster
      if cluster = 0 then return (-ENOSPC, inode, position)
      writeAt fsbi inode cluster false buffer buf count position) w = some (r, w')) :
    InFile r.2.1 r.2.2 := by
  have walked := run_walkChain fsbi w (toInt32 (position.tdiv fsbi.bytesPerCluster)).toNat
    inode.firstCluster
  simp only [run_bind, walked, Option.bind_some] at ran
  have room := fits.room
  simp only [Backed, if_neg started] at room
  generalize clusterAt fsbi w inode.firstCluster
    (toInt32 (position.tdiv fsbi.bytesPerCluster)).toNat = cluster at *
  by_cases nowhere : cluster = 0
  · rw [if_pos nowhere] at ran
    cases ran
    exact inside
  rw [if_neg nowhere] at ran
  refine writeAt_inside layout int inside fits.forward fits.long ?_ ran
  rcases room with room | single | backed
  · exact Or.inl room
  · exact Or.inr (Or.inl single)
  · rcases backed with zero | ⟨valid, lasts⟩
    · exact absurd zero nowhere
    · exact Or.inr (Or.inr ⟨next_steady layout valid rfl, lasts⟩)

theorem write_inside (layout : Layout fsbi) {inode : IndexNode} {buf count : Nat} {position : Int}
    {w w' : World} {r : Int × IndexNode × Int} (inside : InFile inode position)
    (fits : WriteFits fsbi w inode position (toInt32 count))
    (ran : run (FAT32Write fsbi inode buf count position) w = some (r, w')) :
    InFile r.2.1 r.2.2 := by
  have some_bytes := layout.mounted.some_bytes
  have not_zero : ¬ fsbi.bytesPerCluster = 0 := by omega
  have fits_now : WriteFits fsbi { w with fresh := w.fresh.tail } inode position (toInt32 count) :=
    fits.disk rfl
  simp only [FAT32Write, if_neg not_zero, run_bind, alloc, run, Option.bind_some] at ran
  by_cases empty : inode.firstCluster = 0
  · rw [if_pos empty] at ran
    exact write_first_inside layout rfl inside empty fits_now ran
  · rw [if_neg empty] at ran
    exact write_next_inside layout rfl inside empty fits_now ran

def wanted (inode : IndexNode) (position : Int) (count : Nat) : Nat :=
  min count (inode.fileSize - position.toNat)

theorem read_inside (mounted : Mounted fsbi) {inode : IndexNode} {buf count : Nat}
    {position : Int} (inside : InFile inode position) (long : count < 2 ^ 63)
    (fits : inode.firstCluster ≠ 0 → 0 ≤ position + toInt32 (wanted inode position count)) :
    Always Anything Anything (FAT32Read fsbi inode buf count position) fun r =>
      InFile inode r.2 := by
  have some_bytes := mounted.some_bytes
  have not_zero : ¬ fsbi.bytesPerCluster = 0 := by omega
  have low := inside.low
  have high := inside.high
  have size := inside.long
  have room := room_at mounted low
  obtain ⟨p, at_⟩ : ∃ p : Nat, position = p := ⟨position.toNat, by omega⟩
  simp only [FAT32Read, if_neg not_zero, always_bind, always_alloc]
  intro _
  split
  · exact inside
  · rename_i started
    have forward := fits started
    have counted : readCount inode position count = wanted inode position count := by
      rw [at_, wanted, Int.toNat_natCast]
      exact readCount_eq (by omega) (by omega) (by omega)
    unfold readCount at counted
    simp only [always_bind]
    apply always_all
    intro cluster
    simp only [counted]
    refine always_mono (read_between mounted room) fun last between => ?_
    have lowest := between.low
    have highest := between.high
    have below := toInt32_le (wanted inode position count)
    have within : wanted inode position count ≤ inode.fileSize - position.toNat :=
      Nat.min_le_right _ _
    rw [always_pure]
    exact ⟨by omega, by omega, size⟩

end loops

def next (v : Volume) (s : Session) (e : OpenFiles.Event) : Option Session :=
  (s.answer v e).map fun reply => ⟨reply.2.disk, reply.1.2⟩

/-- 0 <= position <= file_size behind a descriptor. -/
def PositionInFile (fd : Nat) (s : Session) : Prop :=
  ∃ filp, s.files fd = some filp ∧ 0 ≤ filp.position ∧ filp.position ≤ filp.inode.fileSize

def Holds (fd : Nat) (files : Files) : Prop :=
  ∃ filp, files fd = some filp ∧ filp.device = false ∧ InFile filp.inode filp.position

def On (fd : Nat) : OpenFiles.Call → Prop
  | .read d _ _ => d = fd
  | .write d _ _ => d = fd
  | .lseek d _ _ => d = fd
  | _ => False

def Step (v : Volume) (fd : Nat) (s : Session) (e : OpenFiles.Event) (t : Session) : Prop :=
  next v s e = some t ∧ On fd e.call ∧ Long e.call

/-- What keeps the position in the file, of the state before the call. -/
def Allowed (v : Volume) (s : Session) (e : OpenFiles.Event) : Prop :=
  match e.call with
  | .read fd _ count => ∀ filp, Behind s.files fd count filp → filp.inode.firstCluster ≠ 0 →
      0 ≤ filp.position + toInt32 (wanted filp.inode filp.position count.toNat)
  | .write fd _ count => ∀ filp, Behind s.files fd count filp →
      WriteFits v.fsbi (s.world e) filp.inode filp.position (toInt32 count.toNat)
  | _ => True

/-- sys_open gave the descriptor for a regular file. -/
structure Opens (v : Volume) (s : Session) (e : OpenFiles.Event) (fd : Nat) (t : Session) :
    Prop where
  opening : ∃ path flags, e.call = .opening path flags
  answered : ∃ w, s.answer v e = some (((fd : Int), t.files), w) ∧ t.disk = w.disk
  regular : ∀ filp, t.files fd = some filp → filp.device = false

theorem dirFileSize_lt (v : View) (p : Int) : dirFileSize v p < 2 ^ 32 := by
  have word : ∀ i, wordAt v i < 2 ^ 16 := by
    intro i
    have low := (v i).toNat_lt
    have high := (v (i + 1)).toNat_lt
    unfold wordAt byteAt
    omega
  have low := word (p + 28)
  have high := word (p + 30)
  unfold dirFileSize
  omega

def Sized : Option Found → Prop
  | some found => found.inode.fileSize < 2 ^ 32
  | none => True

theorem lookupFrom_sized (fsbi : SbInfo) (before block : Memory) (d : Component)
    (fuel cluster : Nat) :
    Always Anything Anything (lookupFrom fsbi before block d fuel cluster) Sized := by
  induction fuel generalizing block cluster with
  | zero => trivial
  | succ fuel ih =>
    simp only [lookupFrom, always_bind, always_readSectors]
    intro reply
    cases reply with
    | none => trivial
    | some sectors =>
      dsimp only
      split
      · rename_i p _
        exact dirFileSize_lt _ p
      · simp only [always_bind]
        apply always_all
        intro entry
        split
        · exact ih _ entry
        · trivial

theorem pathWalk_sized (v : Volume) (parent : Found) (path : List Component)
    (sized : Sized (some parent)) : Always Anything Anything (pathWalk v parent path) Sized := by
  induction path generalizing parent with
  | nil => exact sized
  | cons d path ih =>
    simp only [pathWalk, FAT32Lookup, always_bind, always_alloc]
    intro before block
    refine always_mono (lookupFrom_sized v.fsbi before block d _ _) fun found sized => ?_
    cases found with
    | none => trivial
    | some found => exact ih found sized

theorem openFile_inside {dentry : Found} (sized : Sized (some dentry)) (flags : Nat) :
    InFile (openFile dentry flags).inode (openFile dentry flags).position := by
  have size : dentry.inode.fileSize < 2 ^ 32 := sized
  unfold openFile
  dsimp only
  constructor
  · split
    · exact Int.natCast_nonneg _
    · exact Int.le_refl _
  · split
    · exact Int.le_refl _
    · exact Int.natCast_nonneg _
  · split
    · exact Nat.two_pow_pos 63
    · omega

theorem open_holds {v : Volume} {s t : Session} {e : OpenFiles.Event} {fd : Nat}
    (opens : Opens v s e fd t) : Holds fd t.files := by
  obtain ⟨path, flags, call⟩ := opens.opening
  obtain ⟨w, answered, _⟩ := opens.answered
  have every : Always Anything Anything (sysOpen v s.files path flags) fun r =>
      ∀ fd : Nat, r.1 = fd → ∃ filp, r.2 fd = some filp ∧ InFile filp.inode filp.position := by
    simp only [sysOpen, always_bind]
    refine always_mono (pathWalk_sized v v.root path (Nat.two_pow_pos 32)) fun found sized => ?_
    cases found with
    | none =>
      intro fd same
      exact absurd same (by simp only [ENOENT]; omega)
    | some dentry =>
      intro fd same
      rcases openEntry_cases s.files dentry flags with failed | opened
      · obtain ⟨error, negative, failed⟩ := failed
        rw [failed] at same
        dsimp only at same
        omega
      · obtain ⟨place, opened⟩ := opened
        rw [opened] at same ⊢
        have here : place = fd := by
          dsimp only at same
          omega
        rw [here]
        exact ⟨_, Function.update_self _ _ _, openFile_inside sized flags⟩
  simp only [Session.answer, call, syscall] at answered
  obtain ⟨filp, opened, inside⟩ := run_post every answered fd rfl
  exact ⟨filp, opened, opens.regular filp opened, inside⟩

section calls
variable {v : Volume} {fd : Nat} {s t : Session} {e : OpenFiles.Event}

theorem next_some (next : next v s e = some t) :
    ∃ r w, s.answer v e = some (r, w) ∧ t = ⟨w.disk, r.2⟩ := by
  obtain ⟨reply, answer, made⟩ := Option.map_eq_some_iff.mp next
  exact ⟨reply.1, reply.2, answer, made.symm⟩

theorem holds_update {files : Files} {filp : OpenFile} (plain : filp.device = false)
    (inside : InFile filp.inode filp.position) :
    Holds fd (Function.update files fd (some filp)) :=
  ⟨filp, Function.update_self _ _ _, plain, inside⟩

theorem read_holds (mounted : Mounted v.fsbi) (holds : Holds fd s.files) {buf : Nat} {count : Int}
    (long : count < 2 ^ 63) (fits : ∀ filp, Behind s.files fd count filp →
      filp.inode.firstCluster ≠ 0 →
        0 ≤ filp.position + toInt32 (wanted filp.inode filp.position count.toNat)) :
    Always Anything Anything (OpenFiles.sysRead v s.files fd buf count) fun r => Holds fd r.2 := by
  obtain ⟨filp, opened, plain, inside⟩ := holds
  have same : Holds fd s.files := ⟨filp, opened, plain, inside⟩
  unfold OpenFiles.sysRead
  split
  · exact same
  · rename_i good
    split
    · exact same
    · rename_i counted
      have behind : Behind s.files fd count filp := ⟨good, counted, opened⟩
      simp only [Int.toNat_natCast, opened, plain, Bool.false_eq_true, ↓reduceIte, always_bind]
      refine always_mono (@read_inside v.fsbi mounted _ _ _ _ inside (by omega)
        (fits filp behind)) fun r inside => ?_
      exact holds_update rfl inside

theorem lseek_holds (holds : Holds fd s.files) {offset whence : Int} (long : offset < 2 ^ 63) :
    Always Anything Anything (sysLseek s.files fd offset whence) fun r => Holds fd r.2 := by
  obtain ⟨filp, opened, plain, inside⟩ := holds
  have same : Holds fd s.files := ⟨filp, opened, plain, inside⟩
  unfold sysLseek
  split
  · exact same
  · split
    · exact same
    · obtain ⟨low, high⟩ := @lseek_inside filp.inode filp.position offset whence.toNat inside.low
        inside.high inside.long long
      simp only [Int.toNat_natCast, opened, plain, Bool.false_eq_true, ↓reduceIte]
      exact holds_update rfl ⟨low, high, inside.long⟩

theorem write_holds (layout : Layout v.fsbi) (holds : Holds fd s.files) {buf : Nat} {count : Int}
    {w w' : World} {r : Int × Files} (fits : ∀ filp, Behind s.files fd count filp →
      WriteFits v.fsbi w filp.inode filp.position (toInt32 count.toNat))
    (ran : run (OpenFiles.sysWrite v s.files fd buf count) w = some (r, w')) : Holds fd r.2 := by
  obtain ⟨filp, opened, plain, inside⟩ := holds
  have same : Holds fd s.files := ⟨filp, opened, plain, inside⟩
  unfold OpenFiles.sysWrite at ran
  split at ran
  · cases ran
    exact same
  · rename_i good
    split at ran
    · cases ran
      exact same
    · rename_i counted
      have behind : Behind s.files fd count filp := ⟨good, counted, opened⟩
      simp only [Int.toNat_natCast, opened, plain, Bool.false_eq_true, ↓reduceIte,
        run_bind] at ran
      obtain ⟨⟨⟨ret, inode, position⟩, w₁⟩, wrote, ran⟩ := Option.bind_eq_some_iff.mp ran
      have inside := write_inside layout inside (fits filp behind) wrote
      cases ran
      exact holds_update rfl inside

theorem step_holds (layout : Layout v.fsbi) (holds : Holds fd s.files)
    (step : Guarded (Allowed v) (Step v fd) s e t) : Holds fd t.files := by
  obtain ⟨⟨next, on, long⟩, allowed⟩ := step
  obtain ⟨r, w, answer, rfl⟩ := next_some next
  unfold Allowed at allowed
  simp only [Session.answer] at answer
  cases call : e.call with
  | opening path flags =>
    rw [call] at on
    exact absurd on id
  | close d =>
    rw [call] at on
    exact absurd on id
  | read d buf count =>
    rw [call] at on long allowed answer
    rw [show d = fd from on] at allowed answer
    exact @run_post _ _ (fun r : Int × Files => Holds fd r.2) _ _ _
      (read_holds layout.mounted holds long allowed) answer
  | write d buf count =>
    rw [call] at on allowed answer
    rw [show d = fd from on] at allowed answer
    exact write_holds layout holds allowed answer
  | lseek d offset whence =>
    rw [call] at on long answer
    rw [show d = fd from on] at answer
    exact @run_post _ _ (fun r : Int × Files => Holds fd r.2) _ _ _ (lseek_holds holds long) answer

end calls

/-- A descriptor that sys_open gave for a regular file, and any calls on it: where every read and
    write meets the condition, the position is between 0 and the size after every call. -/
theorem position_inside {v : Volume} (layout : Layout v.fsbi) {s t u : Session}
    {e : OpenFiles.Event} {es : List OpenFiles.Event} {fd : Nat} (opens : Opens v s e fd t)
    (ran : Steps (Guarded (Allowed v) (Step v fd)) t es u) : PositionInFile fd u := by
  have holds := invariant_of_step (fun _ _ _ holds step => step_holds layout holds step) ran
    (open_holds opens)
  obtain ⟨filp, opened, _, inside⟩ := holds
  exact ⟨filp, opened, inside.low, inside.high⟩

def begin (disk : Memory) (flags : Nat) : Option Session :=
  next readmeVolume ⟨disk, fun _ => none⟩ (caller (.opening [readmeTxt] flags))

theorem begin_opens {disk : Memory} {flags : Nat} {t : Session} {size position : Nat}
    (begun : begin disk flags = some t)
    (fresh : (begin disk flags).bind (fun t => (t.files 0).map fun filp =>
      (filp.device, filp.inode.fileSize, filp.position)) = some (false, size, (position : Int)))
    (answer : ((⟨disk, fun _ => none⟩ : Session).answer readmeVolume
      (caller (.opening [readmeTxt] flags))).map (fun reply => reply.1.1) = some 0) :
    Opens readmeVolume ⟨disk, fun _ => none⟩ (caller (.opening [readmeTxt] flags)) 0 t ∧
      ∃ filp, t.files 0 = some filp ∧ filp.inode.fileSize = size ∧ filp.position = position := by
  rw [begun, Option.bind_some] at fresh
  obtain ⟨filp, opened, fresh⟩ := Option.map_eq_some_iff.mp fresh
  obtain ⟨r, w, answered, made⟩ := next_some begun
  rw [answered, Option.map_some] at answer
  simp only [Prod.mk.injEq] at fresh
  refine ⟨⟨⟨_, _, rfl⟩, ⟨w, ?_, by rw [made]⟩, fun other opened' => ?_⟩, filp, opened, fresh.2⟩
  · have result : r.1 = 0 := Option.some.inj answer
    rw [answered, made]
    change some (r, w) = some (((0 : Int), r.2), w)
    rw [← result]
  · rw [opened] at opened'
    cases opened'
    exact fresh.1

instance (fsbi : SbInfo) (inode : IndexNode) (position index : Int) (entries : Nat) :
    Decidable (Lasts fsbi inode position index entries) :=
  inferInstanceAs (Decidable (_ ∨ _))

instance (fsbi : SbInfo) (c : Nat) : Decidable (Valid fsbi c) :=
  decidable_of_iff (2 ≤ c ∧ c < 128 * fsbi.sectorPerFAT ∧ c < 0x0ffffff8)
    ⟨fun h => ⟨h.1, h.2.1, h.2.2⟩, fun h => ⟨h.data, h.in_table, h.no_mark⟩⟩

instance (fsbi : SbInfo) (w : World) (inode : IndexNode) (position index : Int) :
    Decidable (Backed fsbi w inode position index) :=
  inferInstanceAs (Decidable (if inode.firstCluster = 0 then _ ∨ _ ∧ _ ∧ (_ ∨ _ ∧ _)
    else _ ∨ _ ∧ (_ → _)))

instance (fsbi : SbInfo) (w : World) (inode : IndexNode) (position index : Int) :
    Decidable (WriteFits fsbi w inode position index) :=
  decidable_of_iff (0 ≤ position + index ∧ position + index < 2 ^ 63 ∧
      (position + index ≤ inode.fileSize ∨
        crossings fsbi (position.tmod fsbi.bytesPerCluster) index = 0 ∨
        Backed fsbi w inode position index))
    ⟨fun h => ⟨h.1, h.2.1, h.2.2⟩, fun h => ⟨h.forward, h.long, h.room⟩⟩

def fitting (v : Volume) (s : Session) (e : OpenFiles.Event) : Bool :=
  match e.call with
  | .read fd _ count => (s.files fd.toNat).all fun filp => filp.inode.firstCluster ≠ 0 →
      0 ≤ filp.position + toInt32 (wanted filp.inode filp.position count.toNat)
  | .write fd _ count => (s.files fd.toNat).all fun filp =>
      WriteFits v.fsbi (s.world e) filp.inode filp.position (toInt32 count.toNat)
  | _ => true

theorem fitting_allowed {v : Volume} {s : Session} {e : OpenFiles.Event}
    (fits : fitting v s e = true) : Allowed v s e := by
  unfold fitting at fits
  unfold Allowed
  split
  · next fd _ count call =>
    intro filp behind
    rw [call] at fits
    dsimp only at fits
    rw [behind.opened] at fits
    exact of_decide_eq_true fits
  · next fd _ count call =>
    intro filp behind
    rw [call] at fits
    dsimp only at fits
    rw [behind.opened] at fits
    exact of_decide_eq_true fits
  · trivial

def nextFitting (v : Volume) (s : Session) (e : OpenFiles.Event) : Option Session :=
  if fitting v s e then next v s e else none

def fullDisk : Memory := fun i => if 1024 ≤ i ∧ i < 1536 then 0xff else readmeDisk i

/- The cluster is filled, and a write over it that goes on behind its end stops there with -ENOSPC. -/
def fullCalls : List OpenFiles.Event :=
  [caller (.write 0 0 511), caller (.lseek 0 0 0), caller (.write 0 0 600), caller (.lseek 0 (-12) 1),
    caller (.read 0 0 100)]

theorem position_inside_full : ∃ t u, begin fullDisk oAppend = some t ∧
    exec (nextFitting readmeVolume) t fullCalls = some u ∧ PositionInFile 0 u := by
  have ran : ((begin fullDisk oAppend).bind fun t =>
      exec (nextFitting readmeVolume) t fullCalls).isSome = true := by decide +kernel
  obtain ⟨u, ran⟩ := Option.isSome_iff_exists.mp ran
  obtain ⟨t, begun, ran⟩ := Option.bind_eq_some_iff.mp ran
  obtain ⟨opens, _⟩ := @begin_opens _ _ _ 1 1 begun (by decide +kernel) (by decide +kernel)
  have calls : ∀ e ∈ fullCalls, On 0 e.call ∧ Long e.call := by
    simp [fullCalls, caller, On, Long]
  refine ⟨t, u, begun, ran, position_inside oneSector_layout opens
    (steps_mono (fun s e t step => ?_) (steps_of_exec_all ran calls))⟩
  obtain ⟨taken, on, long⟩ := step
  obtain ⟨fits, moved⟩ := Option.ite_none_right_eq_some.mp taken
  exact ⟨⟨moved, on, long⟩, fitting_allowed fits⟩

/- 512 bytes behind the one of the file: -ENOSPC comes at the end of the cluster. -/
theorem position_past_size :
    ¬ ∀ (v : Volume) (s t u : Session) (e : OpenFiles.Event) (es : List OpenFiles.Event) (fd : Nat),
      Layout v.fsbi → Opens v s e fd t → Steps (Step v fd) t es u → PositionInFile fd u := by
  intro claim
  obtain ⟨t, begun⟩ := Option.isSome_iff_exists.mp
    (by decide +kernel : (begin fullDisk oAppend).isSome = true)
  obtain ⟨opens, _⟩ := @begin_opens _ _ _ 1 1 begun (by decide +kernel) (by decide +kernel)
  have left : ((begin fullDisk oAppend).bind fun t => (next readmeVolume t
      (caller (.write 0 0 512))).bind fun u => (u.files 0).map fun filp =>
        (filp.inode.fileSize, filp.position)) = some (1, 512) := by decide +kernel
  rw [begun, Option.bind_some] at left
  obtain ⟨u, wrote, left⟩ := Option.bind_eq_some_iff.mp left
  obtain ⟨filp, opened, left⟩ := Option.map_eq_some_iff.mp left
  have long : Long (caller (.write 0 0 512)).call := (by decide : (512 : Int) < 2 ^ 63)
  obtain ⟨other, opened', _, high⟩ := claim _ _ _ _ _ _ _ oneSector_layout opens
    (.cons ⟨wrote, rfl, long⟩ (.nil u))
  rw [opened] at opened'
  cases opened'
  simp only [Prod.mk.injEq] at left
  rw [left.1, left.2] at high
  exact absurd high (by decide)

end FilePosition

import Q2os.ChainReads
import Q2os.TableEntries
import Q2os.TableSupply

/- Which sectors FAT32_write writes, whatever the position and the count. -/
namespace WriteIsolation
open ByteMemory BlockProgram UserMemory Fat32 UserPointers ChainReads
open NameMatching (oneSectorVolume)
open TableEntries (numbered_of_layout entry_allowed)

def InCluster (fsbi : SbInfo) (cluster sector : Nat) : Prop :=
  clusterSector fsbi cluster ≤ sector ∧ sector < clusterSector fsbi cluster + fsbi.sectorPerCluster

/-- Sectors of the file: of its chain, of clusters linked to it, of the copies of the table, and
    of the cluster with its entry. -/
def OwnSectors (fsbi : SbInfo) (w : World) (inode : IndexNode) (len : Nat) (linked : Nat → Prop)
    (sector count : Nat) : Prop :=
  ∀ x, sector ≤ x → x < sector + count →
    (inode.firstCluster ≠ 0 ∧ ∃ i < len, InCluster fsbi (clusterAt fsbi w inode.firstCluster i) x) ∨
    (∃ c, linked c ∧ InCluster fsbi c x) ∨
    TableSector fsbi x ∨
    (inode.dentryLocation ≠ 0 ∧ InCluster fsbi inode.dentryLocation x)

def HasEntry (fsbi : SbInfo) (inode : IndexNode) : Prop :=
  inode.dentryLocation = 0 ∨ Valid fsbi inode.dentryLocation

/-- A call writes sectors of its file only, the clusters linked to it being ones that were free
    before and are not behind it. -/
def Isolated (fsbi : SbInfo) (w : World) (inode : IndexNode) (len : Nat) {α : Type}
    (p : Prog α) : Prop :=
  ∃ linked : Nat → Prop, (∀ c, linked c → Valid fsbi c ∧ fatEntry fsbi w c = 0) ∧
    Puts (OwnSectors fsbi w inode len linked) p w fun _ w' => ∀ c, linked c → fatEntry fsbi w' c ≠ 0

def FirstKept (fsbi : SbInfo) (buf count position : Nat) : Prop :=
  Kept fsbi ((position : Int).tmod fsbi.bytesPerCluster) buf
    (pieceLength fsbi (toInt32 count) ((position : Int).tmod fsbi.bytesPerCluster))

section writes
variable {fsbi : SbInfo} {w : World} {ok : Nat → Nat → Prop}

theorem puts_done {α : Type} {p : Prog α} {w' : World} {a : α} {post : α → World → Prop}
    {any : α → Prop} (allowed : Always Anything ok p any) (ran : run p w = some (a, w')) :
    Puts ok p w post ↔ post a w' := by
  rw [puts_run ran]
  exact and_iff_right (puts_of_always allowed)

theorem find_allowed (fsbi : SbInfo) {left i : Nat} (within : i + left = fsbi.sectorPerFAT) :
    Always Anything ok (findAvailable fsbi left i) fun a => a = 0 ∨ InTable fsbi a := by
  induction left generalizing i with
  | zero => exact Or.inl rfl
  | succ left ih =>
    simp only [findAvailable, always_bind, always_readSectors]
    intro reply
    cases found : freeIn (received reply) with
    | none => exact ih (by omega)
    | some j =>
      obtain ⟨slot, _⟩ := freeIn_some found
      right
      unfold InTable
      omega

theorem inode_allowed {inode : IndexNode} (entered : inode.dentryLocation ≠ 0 →
    ok (clusterSector fsbi inode.dentryLocation) fsbi.sectorPerCluster) :
    Always Anything ok (fat32WriteInode fsbi inode) fun _ => True := by
  unfold fat32WriteInode
  split
  · trivial
  · next some_entry =>
    simp only [always_bind, always_alloc, always_readSectors, always_writeSectors, always_pure]
    exact fun _ _ => ⟨entered some_entry, fun _ => trivial⟩

theorem copyIn_kept (buffer : Memory) (offset : Int) (buf : Nat) (length : Int) :
    Always Anything ok (copyIn fsbi buffer offset buf length) fun _ =>
      Kept fsbi offset buf length := by
  simp only [copyIn, Kept]
  split
  · next nothing => exact Or.inl nothing
  · simp only [always_bind, always_load]
    refine ⟨trivial, fun memory => ?_⟩
    split
    · next inside => exact Or.inr inside
    · trivial

theorem extend_allowed (layout : Layout fsbi) {s : Writing} (in_table : InTable fsbi s.cluster)
    (tables : ∀ sector, TableSector fsbi sector → ok sector 1) :
    Always Anything ok (extendChain fsbi s) fun next => ∀ m, next = some m →
      ∃ a, InTable fsbi a ∧ m = { s with cluster := a, flags := true } := by
  simp only [extendChain, always_bind]
  refine always_mono (find_allowed fsbi (Nat.zero_add _)) fun next found => ?_
  split
  · exact fun m none_ => nomatch none_
  · next some_cluster =>
    have new := found.resolve_left some_cluster
    simp only [always_bind, always_pure]
    refine always_mono (entry_allowed (numbered_of_layout layout in_table) next tables) fun _ _ => ?_
    refine always_mono (entry_allowed (numbered_of_layout layout new) _ tables) fun _ _ => ?_
    exact fun m made => ⟨next, new, (Option.some.inj made).symm⟩

theorem load_allowed (s : Writing) : Always Anything ok (loadCluster fsbi s) fun next =>
    ∀ m, next = some m → ∃ buffer, m = { s with sector := s.target fsbi, buffer := buffer } := by
  unfold loadCluster Writing.target
  split
  · next flags => exact fun m made => ⟨s.buffer, (Option.some.inj made).symm⟩
  · simp only [always_bind, always_readSectors, always_pure]
    intro reply m made
    obtain ⟨sectors, _, made⟩ := Option.map_eq_some_iff.mp made
    exact ⟨_, made.symm⟩

theorem goOn_allowed (layout : Layout fsbi) {s : Writing} (in_table : InTable fsbi s.cluster)
    (tables : ∀ sector, TableSector fsbi sector → ok sector 1) {again : Writing → Prog Leave}
    (same : Always Anything ok (again s) fun _ => True)
    (other : ∀ a, InTable fsbi a → Always Anything ok
      (again { s with cluster := a, flags := true }) fun _ => True) :
    Always Anything ok (goOn fsbi again s) fun _ => True := by
  simp only [goOn, DISK1FAT32ReadFATEntry, always_bind, always_readSectors, always_pure]
  intro reply
  split
  · simp only [always_bind]
    refine always_mono (extend_allowed layout in_table tables) fun next extended => ?_
    cases next with
    | none => trivial
    | some m =>
      obtain ⟨a, new, rfl⟩ := extended m rfl
      exact other a new
  · exact same

theorem target_extended (s : Writing) (a : Nat) :
    Writing.target fsbi { s with cluster := a, flags := true } = s.sector := if_pos rfl

theorem sector_behind (s : Writing) (length : Int) (buffer : Memory) :
    (s.behind fsbi length buffer).sector = s.target fsbi := rfl

/-- Every round of the loop writes to the sector of the first one. -/
theorem pieces_allowed (layout : Layout fsbi) {fuel : Nat} {s : Writing}
    (tables : ∀ sector, TableSector fsbi sector → ok sector 1)
    (start : Kept fsbi s.offset s.buf (pieceLength fsbi s.index s.offset) →
      InTable fsbi s.cluster ∧ ok (s.target fsbi) fsbi.sectorPerCluster) :
    Always Anything ok (writePieces fsbi fuel s) fun _ => True := by
  induction fuel generalizing s with
  | zero => trivial
  | succ fuel ih =>
    simp only [writePieces, always_bind]
    refine always_mono (load_allowed s) fun next loaded => ?_
    cases next with
    | none => trivial
    | some m =>
      obtain ⟨buffer, rfl⟩ := loaded m rfl
      simp only [writePiece, always_bind]
      refine always_mono (copyIn_kept _ _ _ _) fun data kept => ?_
      obtain ⟨in_table, target⟩ := start kept
      simp only [always_writeSectors]
      refine ⟨target, fun written => ?_⟩
      split
      · trivial
      · split
        · trivial
        · apply @goOn_allowed fsbi ok layout (s.behind fsbi (pieceLength fsbi s.index s.offset) data)
            in_table tables (writePieces fsbi fuel)
          · refine ih fun _ => ⟨in_table, ?_⟩
            rw [target_behind]
            exact target
          · intro a new
            refine ih fun _ => ⟨new, ?_⟩
            rw [target_extended, sector_behind]
            exact target

theorem target_started (cluster buf : Nat) (flags : Bool) (index offset position : Int)
    (buffer : Memory) : Writing.target fsbi ⟨cluster, 0, flags, index, offset, buf, buffer, position⟩ =
      if flags then 0 else clusterSector fsbi cluster := rfl

theorem writeAt_allowed (layout : Layout fsbi) {inode : IndexNode} {cluster buf count : Nat}
    {flags : Bool} {buffer : Memory} {position : Int}
    (tables : ∀ sector, TableSector fsbi sector → ok sector 1)
    (entered : inode.dentryLocation ≠ 0 →
      ok (clusterSector fsbi inode.dentryLocation) fsbi.sectorPerCluster)
    (start : Kept fsbi (position.tmod fsbi.bytesPerCluster) buf (pieceLength fsbi (toInt32 count)
      (position.tmod fsbi.bytesPerCluster)) → InTable fsbi cluster ∧
        ok (if flags then 0 else clusterSector fsbi cluster) fsbi.sectorPerCluster) :
    Always Anything ok (writeAt fsbi inode cluster flags buffer buf count position) fun _ => True := by
  simp only [writeAt, always_bind]
  have pieces := @pieces_allowed fsbi ok layout ((toInt32 count).toNat + 1) ⟨cluster, 0, flags,
    toInt32 count, position.tmod fsbi.bytesPerCluster, buf, buffer, position⟩ tables
  rw [target_started] at pieces
  dsimp only at pieces
  refine always_mono (pieces start) fun leave _ => ?_
  cases leave with
  | full _ => trivial
  | done last =>
    simp only
    split
    · simp only [always_bind, always_pure]
      exact inode_allowed entered
    · trivial

theorem run_copyIn_kept {buffer : Memory} {offset length : Int} {buf : Nat}
    (kept : Kept fsbi offset buf length) :
    ∃ data w', run (copyIn fsbi buffer offset buf length) w = some (data, w') := by
  simp only [copyIn]
  split
  · exact ⟨_, _, rfl⟩
  · next some_bytes =>
    simp only [run_bind, load, run, Option.bind_some, if_pos (kept.resolve_left some_bytes)]
    exact ⟨_, _, rfl⟩

theorem first_put {fuel : Nat} {s : Writing} {post : Leave → World → Prop}
    (puts : Puts ok (writePieces fsbi (fuel + 1) s) w post)
    (kept : Kept fsbi s.offset s.buf (pieceLength fsbi s.index s.offset)) :
    ok (s.target fsbi) fsbi.sectorPerCluster := by
  obtain ⟨buffer, loaded⟩ := @run_loadCluster fsbi s w
  rw [writePieces, puts_bind, puts_run loaded] at puts
  obtain ⟨data, w', copied⟩ := @run_copyIn_kept fsbi w buffer _ _ _ kept
  have piece := puts.2
  simp only [writePiece, puts_bind] at piece
  exact ((puts_run copied).mp piece).2.1

theorem writeAt_put {cluster buf count : Nat} {flags : Bool} {buffer : Memory} {position : Int}
    {inode : IndexNode} {post : Int × IndexNode × Int → World → Prop}
    (puts : Puts ok (writeAt fsbi inode cluster flags buffer buf count position) w post)
    (kept : Kept fsbi (position.tmod fsbi.bytesPerCluster) buf (pieceLength fsbi (toInt32 count)
      (position.tmod fsbi.bytesPerCluster))) :
    ok (if flags then 0 else clusterSector fsbi cluster) fsbi.sectorPerCluster := by
  simp only [writeAt, puts_bind] at puts
  have put := first_put puts
  rw [target_started] at put
  dsimp only at put
  exact put kept

end writes

section isolation
variable {fsbi : SbInfo} {w : World} {inode : IndexNode} {first len : Nat} {linked : Nat → Prop}

theorem own_table {sector : Nat} (table : TableSector fsbi sector) :
    OwnSectors fsbi w inode len linked sector 1 := by
  intro x low high
  have here : x = sector := by omega
  exact Or.inr (Or.inr (Or.inl (here ▸ table)))

theorem own_entry (some_entry : inode.dentryLocation ≠ 0) :
    OwnSectors fsbi w inode len linked (clusterSector fsbi inode.dentryLocation)
      fsbi.sectorPerCluster :=
  fun _ low high => Or.inr (Or.inr (Or.inr ⟨some_entry, low, high⟩))

theorem own_cluster (started : inode.firstCluster ≠ 0) {i : Nat} (less : i < len) :
    OwnSectors fsbi w inode len linked
      (clusterSector fsbi (clusterAt fsbi w inode.firstCluster i)) fsbi.sectorPerCluster :=
  fun _ low high => Or.inl ⟨started, i, less, low, high⟩

theorem own_place (stored : Stored fsbi w inode first len) (entered : HasEntry fsbi inode)
    (free : ∀ c, linked c → Valid fsbi c) {sector count : Nat} (some_sectors : 0 < count)
    (own : OwnSectors fsbi w inode len linked sector count) :
    TableSector fsbi sector ∨ ∃ c, Valid fsbi c ∧ InCluster fsbi c sector := by
  rcases own sector (Nat.le_refl _) (by omega) with chain | new | table | entry
  · obtain ⟨started, i, less, here⟩ := chain
    rw [(stored.named started).1] at here
    exact Or.inr ⟨_, stored.chain.valid i less, here⟩
  · obtain ⟨c, taken, here⟩ := new
    exact Or.inr ⟨c, free c taken, here⟩
  · exact Or.inl table
  · exact Or.inr ⟨_, entered.resolve_left entry.1, entry.2⟩

theorem boot_not_own (layout : Layout fsbi) (stored : Stored fsbi w inode first len)
    (entered : HasEntry fsbi inode) (free : ∀ c, linked c → Valid fsbi c) :
    ¬ OwnSectors fsbi w inode len linked 0 fsbi.sectorPerCluster := by
  intro own
  have boot := layout.boot
  have tables := layout.tables
  rcases own_place stored entered free layout.some_sectors own with table | cluster
  · have low := table.1
    omega
  · obtain ⟨c, valid, low, _⟩ := cluster
    rw [clusterSector_eq layout valid.data (valid_small valid)] at low
    omega

theorem mark_not_own (layout : Layout fsbi) (stored : Stored fsbi w inode first len)
    (entered : HasEntry fsbi inode) (free : ∀ c, linked c → Valid fsbi c) {mark : Nat}
    (ends : 0x0ffffff8 ≤ mark) (small : mark < 2 ^ 28) :
    ¬ OwnSectors fsbi w inode len linked (clusterSector fsbi mark) fsbi.sectorPerCluster := by
  intro own
  have tables := layout.tables
  have some_sectors := layout.some_sectors
  have behind : (0x0ffffff8 - 2) * fsbi.sectorPerCluster ≤ (mark - 2) * fsbi.sectorPerCluster :=
    Nat.mul_le_mul_right _ (by omega)
  rw [clusterSector_eq layout (by omega) small] at own
  rcases own_place stored entered free some_sectors own with table | cluster
  · have high := table.2
    omega
  · obtain ⟨c, valid, _, high⟩ := cluster
    have below := valid.no_mark
    rw [clusterSector_eq layout valid.data (valid_small valid)] at high
    have before : (c - 2 + 1) * fsbi.sectorPerCluster ≤ (0x0ffffff8 - 2) * fsbi.sectorPerCluster :=
      Nat.mul_le_mul_right _ (by omega)
    rw [Nat.add_mul, Nat.one_mul] at before
    omega

theorem isolated_of_puts {α : Type} {p : Prog α}
    (puts : Puts (OwnSectors fsbi w inode len fun _ => False) p w fun _ _ => True) :
    Isolated fsbi w inode len p := by
  refine ⟨fun _ => False, fun c none_ => none_.elim, ?_⟩
  simpa only [false_implies, implies_true] using puts

theorem empty_isolated (well : WellFormed fsbi w) (stored : Stored fsbi w inode first len)
    (entered : HasEntry fsbi inode) (empty : inode.firstCluster = 0) (buf count position : Nat) :
    Isolated fsbi w inode len (FAT32Write fsbi inode buf count position) ↔
      (∀ c, InTable fsbi c → fatEntry fsbi w c ≠ 0) ∨ ¬ FirstKept fsbi buf count position := by
  have layout := well.layout
  have not_zero : ¬ fsbi.bytesPerCluster = 0 := Nat.ne_of_gt layout.mounted.some_bytes
  obtain ⟨a, found, free⟩ := run_find layout { w with fresh := w.fresh.tail }
  constructor
  · intro isolated
    obtain ⟨linked, new, puts⟩ := isolated
    rcases free with taken | none_left
    · right
      intro kept
      have some_cluster : a ≠ 0 := by
        intro zero
        have reserved := well.reserved
        have used : fatEntry fsbi w 0 = 0 := zero ▸ taken.free
        omega
      simp only [FAT32Write, if_neg not_zero, if_pos empty, puts_bind, puts_alloc] at puts
      have rest := ((puts_run found).mp puts).2
      simp only [if_neg some_cluster, puts_bind] at rest
      obtain ⟨w₁, named, _, _⟩ := run_fat32WriteInode fsbi { inode with firstCluster := a }
        { w with fresh := w.fresh.tail }
      have rest := ((puts_run named).mp rest).2
      obtain ⟨w₂, ended, _⟩ := run_writeFATEntry layout taken.in_table 0x0ffffff8 w₁
      have rest := ((puts_run ended).mp rest).2
      have boot := writeAt_put rest kept
      exact boot_not_own layout stored entered (fun c member => (new c member).1) boot
    · exact Or.inl none_left.2
  · intro either
    apply isolated_of_puts
    simp only [FAT32Write, if_neg not_zero, if_pos empty, puts_bind, puts_alloc]
    refine (puts_done (find_allowed fsbi (Nat.zero_add _)) found).mpr ?_
    rcases free with taken | none_left
    · have escapes : ¬ FirstKept fsbi buf count position := by
        rcases either with full | escapes
        · exact absurd taken.free (full a taken.in_table)
        · exact escapes
      split
      · trivial
      · apply @puts_of_always _ Anything _ _ _ fun _ => True
        simp only [always_bind]
        refine always_mono (inode_allowed fun some_entry => own_entry some_entry) fun _ _ => ?_
        refine always_mono (entry_allowed (numbered_of_layout layout taken.in_table) _
          fun _ => own_table) fun _ _ => ?_
        exact writeAt_allowed layout (fun _ => own_table)
          (fun some_entry => own_entry some_entry) fun kept => absurd kept escapes
    · rw [none_left.1]
      trivial

theorem walk_allowed {ok : Nat → Nat → Prop} (n cluster : Nat) :
    Always Anything ok (walkChain fsbi n cluster) fun _ => True := by
  induction n generalizing cluster with
  | zero => trivial
  | succ n ih =>
    simp only [walkChain, DISK1FAT32ReadFATEntry, always_bind, always_readSectors, always_pure]
    exact fun _ => ih _

theorem chained_isolated (well : WellFormed fsbi w) (stored : Stored fsbi w inode first len)
    (entered : HasEntry fsbi inode) (started : inode.firstCluster ≠ 0) {buf count position : Nat}
    (within : position ≤ inode.fileSize) :
    Isolated fsbi w inode len (FAT32Write fsbi inode buf count position) ↔
      position / fsbi.bytesPerCluster < len ∨ ¬ FirstKept fsbi buf count position := by
  have layout := well.layout
  have not_zero : ¬ fsbi.bytesPerCluster = 0 := Nat.ne_of_gt layout.mounted.some_bytes
  have link_le := stored.link_le well within
  obtain ⟨named, some_clusters⟩ := stored.named started
  have same : SameTables fsbi w { w with fresh := w.fresh.tail } := fun _ _ => rfl
  have here := (stored.chain.frame layout same).1 _ link_le
  have walked := run_walkChain fsbi { w with fresh := w.fresh.tail }
    (position / fsbi.bytesPerCluster) inode.firstCluster
  rw [named, here] at walked
  have small : clusterAt fsbi w first (position / fsbi.bytesPerCluster) < 2 ^ 28 := by
    by_cases inside : position / fsbi.bytesPerCluster < len
    · exact valid_small (stored.chain.valid _ inside)
    · obtain ⟨n, last⟩ : ∃ n, position / fsbi.bytesPerCluster = n + 1 :=
        ⟨position / fsbi.bytesPerCluster - 1, by omega⟩
      rw [last, clusterAt_succ]
      exact fatEntry_lt fsbi w _
  generalize cluster_eq : clusterAt fsbi w first (position / fsbi.bytesPerCluster) = cluster at *
  have linked : cluster ≠ 0 := by
    by_cases inside : position / fsbi.bytesPerCluster < len
    · have data := (stored.chain.valid _ inside).data
      omega
    · have mark := stored.chain.ends
      have last : position / fsbi.bytesPerCluster = len := by omega
      rw [last] at cluster_eq
      omega
  have links := links_eq (stored.countable well within)
  constructor
  · intro isolated
    obtain ⟨taken, new, puts⟩ := isolated
    by_contra neither
    push Not at neither
    obtain ⟨past, kept⟩ := neither
    have mark := stored.chain.ends
    have last : position / fsbi.bytesPerCluster = len := Nat.le_antisymm link_le past
    rw [last] at cluster_eq
    simp only [FAT32Write, if_neg not_zero, if_neg started, puts_bind, puts_alloc, links,
      Int.toNat_natCast] at puts
    rw [named] at puts
    have rest := ((puts_run walked).mp puts).2
    simp only [if_neg linked] at rest
    have far := writeAt_put rest kept
    rw [if_neg Bool.false_ne_true] at far
    exact mark_not_own layout stored entered (fun c member => (new c member).1) (by omega) small far
  · intro either
    apply isolated_of_puts
    simp only [FAT32Write, if_neg not_zero, if_neg started, puts_bind, puts_alloc, links,
      Int.toNat_natCast]
    rw [named]
    refine (puts_done (walk_allowed _ _) walked).mpr ?_
    simp only [if_neg linked]
    apply @puts_of_always _ Anything _ _ _ fun _ => True
    refine writeAt_allowed layout (fun _ => own_table) (fun some_entry => own_entry some_entry)
      fun kept => ?_
    have inside : position / fsbi.bytesPerCluster < len :=
      either.resolve_right fun escapes => escapes kept
    have own := @own_cluster fsbi w inode len (fun _ => False) started _ inside
    have valid := stored.chain.valid _ inside
    rw [named, cluster_eq] at own
    rw [cluster_eq] at valid
    rw [if_neg Bool.false_ne_true]
    exact ⟨valid.in_table, own⟩

/-- FAT32_write writes sectors of its file only, unless its first piece goes to the boot sector,
    for a file that has no cluster yet, or behind the chain. -/
theorem write_isolated_iff (well : WellFormed fsbi w) (stored : Stored fsbi w inode first len)
    (entered : HasEntry fsbi inode) {buf count position : Nat}
    (within : position ≤ inode.fileSize) :
    Isolated fsbi w inode len (FAT32Write fsbi inode buf count position) ↔
      (inode.firstCluster = 0 ∧ ∀ c, InTable fsbi c → fatEntry fsbi w c ≠ 0) ∨
      (inode.firstCluster ≠ 0 ∧ position / fsbi.bytesPerCluster < len) ∨
      ¬ FirstKept fsbi buf count position := by
  by_cases started : inode.firstCluster = 0
  · rw [empty_isolated well stored entered started]
    simp only [started, true_and, ne_eq, not_true_eq_false, false_and, false_or]
  · rw [chained_isolated well stored entered started within]
    simp only [started, false_and, ne_eq, not_false_eq_true, true_and, false_or]

/- A byte outside the tables, the clusters of the file, the one with its entry and the free ones
   keeps its value. -/
theorem isolated_frame {α : Type} {p : Prog α} {a : α} {w' : World}
    (isolated : Isolated fsbi w inode len p) (ran : run p w = some (a, w')) {x : Nat}
    (table : ¬ TableSector fsbi (x / 512))
    (chain : ∀ i < len, ¬ InCluster fsbi (clusterAt fsbi w inode.firstCluster i) (x / 512))
    (entry : ¬ InCluster fsbi inode.dentryLocation (x / 512))
    (used : ∀ c, fatEntry fsbi w c = 0 → ¬ InCluster fsbi c (x / 512)) : w'.disk x = w.disk x := by
  obtain ⟨linked, new, puts⟩ := isolated
  refine (puts_frame puts ran fun sector count own inside => ?_).2
  rcases own (x / 512) (by omega) (by omega) with here | here | here | here
  · obtain ⟨_, i, less, here⟩ := here
    exact chain i less here
  · obtain ⟨c, member, here⟩ := here
    exact used c (new c member).2 here
  · exact table here
  · exact entry here.2

end isolation

theorem write_isolated_iff_full :
    Isolated oneSectorVolume fullDisk fullInode 1
        (FAT32Write oneSectorVolume fullInode 4096 1 ((511 : Nat) : Int)) ↔
      (fullInode.firstCluster = 0 ∧
        ∀ c, InTable oneSectorVolume c → fatEntry oneSectorVolume fullDisk c ≠ 0) ∨
      (fullInode.firstCluster ≠ 0 ∧ 511 / oneSectorVolume.bytesPerCluster < 1) ∨
      ¬ FirstKept oneSectorVolume 4096 1 511 :=
  write_isolated_iff full_well full_stored (Or.inl rfl) (by decide)

def emptyInode : IndexNode := ⟨0, 0, 0, 0⟩

theorem empty_stored : Stored oneSectorVolume fullDisk emptyInode 2 1 :=
  ⟨full_stored.chain, fun started => absurd rfl started, by decide, by decide⟩

/- The first byte of an empty file goes to the boot sector. -/
theorem write_boot_sector :
    ¬ ∀ (fsbi : SbInfo) (w : World) (inode : IndexNode) (first len buf count position : Nat),
      WellFormed fsbi w → Stored fsbi w inode first len → HasEntry fsbi inode →
        position ≤ inode.fileSize →
          Isolated fsbi w inode len (FAT32Write fsbi inode buf count position) := by
  intro isolated
  have here := isolated oneSectorVolume fullDisk emptyInode 2 1 4096 1 0 full_well empty_stored
    (Or.inl rfl) (Nat.le_refl 0)
  have kept : FirstKept oneSectorVolume 4096 1 0 := by
    unfold FirstKept Kept
    decide +kernel
  rcases (empty_isolated full_well empty_stored (Or.inl rfl) rfl 4096 1 0).mp here with full | escapes
  · exact full 3 (by decide : 3 < 128) (by decide +kernel)
  · exact escapes kept

end WriteIsolation

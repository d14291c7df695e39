import Q2os.ChainGrowth
import Q2os.WriteIsolation
import Q2os.WriteThenRead

/- The chains of the files over whole runs of FAT32_write. -/
namespace TableRuns
open ByteMemory BlockProgram Fat32 UserPointers FreeClusters ChainGrowth Run
open FilePosition (clear_cluster putEntry_tables)
open Descriptors (volume)
open WriteIsolation (HasEntry)
open ChainReads (WellFormed)
open NameMatching (oneSectorVolume oneSector_layout)
open Descriptors (readme_valid)
open WriteThenRead (readmeInode markedDisk)

def Unmarked (fsbi : SbInfo) : Prop := ∀ c, InData fsbi c → c < endMark

/-- Before every free entry without a cluster there are n free entries, which a search meets
    first. -/
def Strayless (fsbi : SbInfo) (w : World) (n : Nat) : Prop :=
  ∀ c, Free fsbi w c → ¬ InData fsbi c → n ≤ Nat.count (fun d => fatEntry fsbi w d = 0) c

section supply
variable {fsbi : SbInfo} {w w' : World} {n a : Nat}

theorem Strayless.first (strayless : Strayless fsbi w (n + 1)) (taken : FirstFree fsbi w a) :
    InData fsbi a := by
  by_contra stray
  have before := strayless a ⟨taken.in_table, taken.free⟩ stray
  have none_ : Nat.count (fun d => fatEntry fsbi w d = 0) a = 0 :=
    Nat.count_iff_forall_not.mpr fun c less => taken.first c less
  omega

theorem Strayless.rest (strayless : Strayless fsbi w (n + 1)) (taken : FirstFree fsbi w a)
    (same : ∀ d, InTable fsbi d → (fatEntry fsbi w' d = 0 ↔ fatEntry fsbi w d = 0 ∧ d ≠ a)) :
    Strayless fsbi w' n := by
  intro c free stray
  obtain ⟨was_free, other⟩ := (same c free.1).mp free.2
  have before := strayless c ⟨free.1, was_free⟩ stray
  have behind : a < c := by
    by_contra ahead
    exact taken.first c (by omega) was_free
  have counted := @count_taken (fun d => fatEntry fsbi w d = 0) (fun d => fatEntry fsbi w' d = 0)
    _ _ c a behind taken.free fun d less => same d (Nat.lt_trans less free.1)
  omega

theorem Strayless.congr (strayless : Strayless fsbi w n)
    (same : ∀ d, InTable fsbi d → fatEntry fsbi w' d = fatEntry fsbi w d) :
    Strayless fsbi w' n := by
  intro c free stray
  have before := strayless c ⟨free.1, same c free.1 ▸ free.2⟩ stray
  have counted : Nat.count (fun d => fatEntry fsbi w' d = 0) c =
      Nat.count (fun d => fatEntry fsbi w d = 0) c := by
    rw [Nat.count_eq_card_filter_range, Nat.count_eq_card_filter_range]
    congr 1
    apply Finset.filter_congr
    intro d member
    rw [same d (Nat.lt_trans (Finset.mem_range.mp member) free.1)]
  omega

theorem linked_free {c : Nat} (data : InData fsbi a) (used : c ≠ a → fatEntry fsbi w c ≠ 0)
    (linked : Linked fsbi w w' c a) (d : Nat) (inside : InTable fsbi d) :
    fatEntry fsbi w' d = 0 ↔ fatEntry fsbi w d = 0 ∧ d ≠ a := by
  rw [linked d inside]
  by_cases new : d = a
  · rw [if_pos new]
    simp [new, endMark]
  · rw [if_neg new]
    by_cases old : d = c
    · have low := data.1
      rw [if_pos old, old]
      constructor
      · intro zero
        omega
      · intro free
        exact absurd free.1 (used (old ▸ new))
    · rw [if_neg old]
      exact ⟨fun free => ⟨free, new⟩, fun free => free.1⟩

theorem new_valid (unmarked : Unmarked fsbi) (taken : FirstFree fsbi w a) (data : InData fsbi a) :
    Valid fsbi a :=
  ⟨data.1, taken.in_table, unmarked a data⟩

end supply

section loop
variable {ι : Type} [DecidableEq ι] {fsbi : SbInfo} (layout : Layout fsbi)
  {files : ι → IndexNode} {len : ι → Nat} {i : ι}
include layout

/- A search from the end of a chain finds nothing, or links the first free entry. -/
theorem extend_cases {s : Writing} {w w' : World} {next : Option Writing}
    (in_table : InTable fsbi s.cluster) (ran : run (extendChain fsbi s) w = some (next, w')) :
    (next = none ∧ w' = w) ∨
    ∃ a, FirstFree fsbi w a ∧ next = some { s with cluster := a, flags := true } ∧
      Linked fsbi w w' s.cluster a := by
  obtain ⟨a, found, free⟩ := run_find layout w
  by_cases full : a = 0
  · left
    simp only [extendChain, run_bind, found, Option.bind_some, if_pos full] at ran
    cases ran
    exact ⟨rfl, rfl⟩
  · right
    have taken : FirstFree fsbi w a := by
      rcases free with first | none_
      · exact first
      · exact absurd none_.1 full
    have small : a < 2 ^ 28 := by
      have inside := taken.in_table
      have size := layout.table_size
      unfold InTable at inside
      omega
    obtain ⟨w₁, linked, link⟩ := run_writeFATEntry layout in_table a w
    obtain ⟨w₂, marked, mark⟩ := run_writeFATEntry layout taken.in_table 0x0ffffff8 w₁
    simp only [extendChain, run_bind, found, Option.bind_some, if_neg full, linked, marked] at ran
    cases ran
    refine ⟨a, taken, rfl, fun d inside => ?_⟩
    rw [mark.entry d inside, link.entry d inside, Nat.mod_eq_of_lt small]
    rfl

/-- The loop at the last cluster of a file, with entries of the data area for the clusters it
    will take. -/
structure AtEnd (fsbi : SbInfo) (w : World) (files : ι → IndexNode) (len : ι → Nat) (i : ι)
    (s : Writing) : Prop where
  order : InOrder fsbi w files len
  last : ∃ n, len i = n + 1 ∧ clusterAt fsbi w (files i).firstCluster n = s.cluster
  place : s.position + fsbi.bytesPerCluster - s.offset = (len i * fsbi.bytesPerCluster : Nat)
  clear : Clear fsbi (s.target fsbi)
  supply : Strayless fsbi w (crossings fsbi s.offset s.index)

/-- Every round links at most one cluster behind the last one, and the loop ends inside the
    clusters of the file. -/
theorem pieces_order (unmarked : Unmarked fsbi) {fuel room : Nat} {s : Writing} {w w' : World}
    {leave : Leave} (ran : run (writePieces fsbi fuel s) w = some (leave, w'))
    (h : Room fsbi s.offset room) (at_end : AtEnd fsbi w files len i s) :
    ∃ len', InOrder fsbi w' files len' ∧ ∀ last, leave = .done last →
      last.position = s.position + s.index ∧
        last.position ≤ (len' i * fsbi.bytesPerCluster : Nat) := by
  induction fuel generalizing s w len room with
  | zero => cases ran
  | succ fuel ih =>
    have place := at_end.place
    have fits := h.fits
    rcases run_round layout.mounted h ran with last | more
    · obtain ⟨inside, done, same⟩ := last
      refine ⟨len, at_end.order.frame layout (same at_end.clear), fun last left => ?_⟩
      rw [done] at left
      cases left
      exact ⟨rfl, by dsimp only; omega⟩
    · obtain ⟨more, buffer, w₁, same, ran⟩ := more
      have tables := same at_end.clear
      have order := at_end.order.frame layout tables
      obtain ⟨n, some_clusters, last⟩ := at_end.last
      have own := (at_end.order.used (show n < len i by omega)).1
      have in_table := (own.valid n (by omega)).in_table
      have mark : endMark ≤ clusterAt fsbi w (files i).firstCluster (len i) := own.ends
      rw [last] at in_table
      rw [some_clusters, clusterAt_succ, last] at mark
      have cluster : (s.behind fsbi room buffer).cluster = s.cluster := rfl
      have sector : (s.behind fsbi room buffer).sector = s.target fsbi := rfl
      have offset : (s.behind fsbi room buffer).offset = 0 := rfl
      have index : (s.behind fsbi room buffer).index = s.index - room := rfl
      have position : (s.behind fsbi room buffer).position = s.position + room := rfl
      generalize s.behind fsbi room buffer = m at *
      rw [← cluster] at in_table mark last
      rw [run_goOn, fatEntry_frame layout tables in_table, if_pos mark, run_bind] at ran
      obtain ⟨⟨next, w₂⟩, extended, ran⟩ := Option.bind_eq_some_iff.mp ran
      rcases extend_cases layout in_table extended with none_ | linked
      · obtain ⟨none_, same⟩ := none_
        rw [none_] at ran
        cases ran
        exact ⟨len, same ▸ order, fun last left => by cases left⟩
      · obtain ⟨a, taken, made, linked⟩ := linked
        rw [made] at ran
        have supply := at_end.supply.congr fun d inside => fatEntry_frame layout tables inside
        rw [crossings_more h more] at supply
        have data := supply.first taken
        have links := (own.frame layout tables).1
        have here : clusterAt fsbi w₁ (files i).firstCluster n = m.cluster := by
          rw [links n (by omega), last]
        have used := (order.used (show n < len i by omega)).2
        rw [here] at used
        have rest := supply.rest taken (linked_free data (fun _ => used) linked)
        rw [← here] at linked
        obtain ⟨order, end_⟩ := order.extended some_clusters (new_valid unmarked taken data) data
          taken.free linked
        have longer : Function.update len i (n + 2) i = n + 2 := Function.update_self ..
        have next_end : AtEnd fsbi w₂ files (Function.update len i (n + 2)) i
            { m with cluster := a, flags := true } := by
          refine ⟨order, ⟨n + 1, longer, end_⟩, ?_, ?_, ?_⟩
          · rw [longer]
            rw [some_clusters] at place
            have whole : (n + 2) * fsbi.bytesPerCluster =
                (n + 1) * fsbi.bytesPerCluster + fsbi.bytesPerCluster := Nat.succ_mul _ _
            dsimp only
            omega
          · simp only [Writing.target, ↓reduceIte, sector]
            exact at_end.clear
          · dsimp only
            rw [offset, index]
            exact rest
        have whole : Room fsbi m.offset fsbi.bytesPerCluster := offset ▸ room_whole layout.mounted
        obtain ⟨len', order', ends⟩ := @ih _ _ { m with cluster := a, flags := true } _ ran
          whole next_end
        refine ⟨len', order', fun last left => ?_⟩
        obtain ⟨reached, inside⟩ := ends last left
        dsimp only at reached
        exact ⟨by omega, inside⟩

omit [DecidableEq ι] in
/-- A loop that ends with its first piece, or before the last cluster of a chain, leaves the
    tables. -/
theorem pieces_quiet {fuel room : Nat} {s : Writing} {w w' : World} {leave : Leave}
    (ran : run (writePieces fsbi fuel s) w = some (leave, w')) (h : Room fsbi s.offset room)
    (clear : Clear fsbi (s.target fsbi))
    (either : s.index ≤ room ∨ InTable fsbi s.cluster ∧ fatEntry fsbi w s.cluster < endMark) :
    leave = .done ⟨0, 0, s.position + s.index⟩ ∧ SameTables fsbi w w' := by
  induction fuel generalizing s w room with
  | zero => cases ran
  | succ fuel ih =>
    rcases run_round layout.mounted h ran with last | more
    · exact ⟨last.2.1, last.2.2 clear⟩
    · obtain ⟨more, buffer, w₁, same, ran⟩ := more
      have tables := same clear
      obtain ⟨in_table, linked⟩ := either.resolve_left more
      have cluster : (s.behind fsbi room buffer).cluster = s.cluster := rfl
      have offset : (s.behind fsbi room buffer).offset = 0 := rfl
      have index : (s.behind fsbi room buffer).index = s.index - room := rfl
      have position : (s.behind fsbi room buffer).position = s.position + room := rfl
      have target := @target_behind fsbi s room buffer
      generalize s.behind fsbi room buffer = m at *
      rw [← cluster] at in_table linked
      have still : fatEntry fsbi w₁ m.cluster < endMark := by
        rw [fatEntry_frame layout tables in_table]
        exact linked
      have whole : Room fsbi m.offset fsbi.bytesPerCluster := offset ▸ room_whole layout.mounted
      rw [run_goOn, if_neg (by omega)] at ran
      obtain ⟨done, rest⟩ := @ih _ m _ ran whole (target ▸ clear) (Or.inr ⟨in_table, still⟩)
      have far : s.position + room + (s.index - room) = s.position + s.index := by omega
      rw [index, position, far] at done
      exact ⟨done, fun x table => (rest x table).trans (tables x table)⟩

/- The end of FAT32_write: the size stays in the clusters of the file. -/
theorem finish_order {position retval : Int} {w w' : World} {r : Int × IndexNode × Int}
    (order : InOrder fsbi w files len) (entered : HasEntry fsbi (files i)) (forward : 0 ≤ position)
    (within : position ≤ (len i * fsbi.bytesPerCluster : Nat))
    (ran : run (if (position % 2 ^ 64).toNat > (files i).fileSize then do
        let inode := { files i with fileSize := (position % 2 ^ 64).toNat }
        fat32WriteInode fsbi inode
        return (retval, inode, position)
      else return (retval, files i, position)) w = some (r, w')) :
    InOrder fsbi w' (Function.update files i r.2.1) len ∧ HasEntry fsbi r.2.1 := by
  have below : (position % 2 ^ 64).toNat ≤ len i * fsbi.bytesPerCluster := by omega
  generalize (position % 2 ^ 64).toNat = size at ran below
  by_cases grows : size > (files i).fileSize
  · obtain ⟨w₁, put, disk, _⟩ := run_fat32WriteInode fsbi { files i with fileSize := size } w
    simp only [if_pos grows, run_bind, put, Option.bind_some] at ran
    cases ran
    have place : (files i).dentryLocation = 0 ∨
        2 ≤ (files i).dentryLocation ∧ (files i).dentryLocation < 2 ^ 28 :=
      entered.imp_right fun valid => ⟨valid.data, valid_small valid⟩
    have tables := @putEntry_tables fsbi layout { files i with fileSize := size } w _ place disk
    exact ⟨(order.frame layout tables).sized below, entered⟩
  · rw [if_neg grows] at ran
    cases ran
    rw [Function.update_eq_self]
    exact ⟨order, entered⟩

structure Begins (fsbi : SbInfo) (s : Writing) (cluster : Nat) (flags : Bool)
    (index position : Int) : Prop where
  cluster : s.cluster = cluster
  sector : s.sector = 0
  flags : s.flags = flags
  index : s.index = index
  offset : s.offset = position.tmod fsbi.bytesPerCluster
  position : s.position = position

theorem writeAt_order {cluster buf count position : Nat} {flags : Bool} {buffer : Memory}
    {index : Int} {w w' : World} {r : Int × IndexNode × Int} (int : toInt32 count = index)
    (entered : HasEntry fsbi (files i))
    (loop : ∀ s leave w₁, run (writePieces fsbi (index.toNat + 1) s) w = some (leave, w₁) →
      Begins fsbi s cluster flags index position →
      ∃ len', InOrder fsbi w₁ files len' ∧ ∀ last, leave = .done last →
        0 ≤ last.position ∧ last.position ≤ (len' i * fsbi.bytesPerCluster : Nat))
    (ran : run (writeAt fsbi (files i) cluster flags buffer buf count position) w =
      some (r, w')) :
    (∃ len', InOrder fsbi w' (Function.update files i r.2.1) len') ∧ HasEntry fsbi r.2.1 := by
  simp only [writeAt, int, run_bind] at ran
  obtain ⟨⟨leave, w₁⟩, looped, ran⟩ := Option.bind_eq_some_iff.mp ran
  obtain ⟨len', order, ends⟩ := loop _ leave w₁ looped ⟨rfl, rfl, rfl, rfl, rfl, rfl⟩
  cases leave with
  | full reached =>
    cases ran
    rw [Function.update_eq_self]
    exact ⟨⟨len', order⟩, entered⟩
  | done last =>
    obtain ⟨forward, within⟩ := ends last rfl
    obtain ⟨kept, still⟩ := finish_order layout order entered forward within ran
    exact ⟨⟨len', kept⟩, still⟩

omit [DecidableEq ι] in
theorem marked_linked {w w₁ w₂ : World} {a : Nat} (tables : SameTables fsbi w w₁)
    (mark : Entered fsbi w₁ w₂ a 0x0ffffff8) : Linked fsbi w w₂ a a := by
  intro d inside
  rw [mark.entry d inside]
  by_cases new : d = a
  · rw [if_pos new, if_pos new]
    rfl
  · rw [if_neg new, if_neg new, if_neg new]
    exact fatEntry_frame layout tables inside

theorem write_first_order (unmarked : Unmarked fsbi) {w w' : World} {buf count position : Nat}
    {index : Int} {buffer : Memory} {r : Int × IndexNode × Int} (int : toInt32 count = index)
    (order : InOrder fsbi w files len)
    (entered : HasEntry fsbi (files i)) (empty : (files i).firstCluster = 0)
    (start : position = 0) (fits : (∀ c, InTable fsbi c → fatEntry fsbi w c ≠ 0) ∨
      0 ≤ index ∧ fsbi.sectorPerCluster ≤ fsbi.FAT1Firstsector ∧
        Strayless fsbi w (crossings fsbi ((position : Int).tmod fsbi.bytesPerCluster)
          index + 1))
    (ran : run (do
      let cluster ← FAT32FindAvailableCluster fsbi
      if cluster = 0 then return (-ENOSPC, files i, (position : Int))
      let inode := { files i with firstCluster := cluster }
      fat32WriteInode fsbi inode
      DISK1FAT32WriteFATEntry fsbi cluster 0x0ffffff8
      writeAt fsbi inode cluster true buffer buf count position) w = some (r, w')) :
    (∃ len', InOrder fsbi w' (Function.update files i r.2.1) len') ∧ HasEntry fsbi r.2.1 := by
  obtain ⟨a, found, free⟩ := run_find layout w
  simp only [run_bind, found, Option.bind_some] at ran
  by_cases full : a = 0
  · rw [if_pos full] at ran
    cases ran
    rw [Function.update_eq_self]
    exact ⟨⟨len, order⟩, entered⟩
  have taken : FirstFree fsbi w a := by
    rcases free with first | none_
    · exact first
    · exact absurd none_.1 full
  obtain ⟨forward, low, supply⟩ := fits.resolve_left fun used =>
    used a taken.in_table taken.free
  have data := supply.first taken
  obtain ⟨inode, made⟩ : ∃ inode, inode = { files i with firstCluster := a } := ⟨_, rfl⟩
  obtain ⟨w₁, put, disk, _⟩ := run_fat32WriteInode fsbi inode w
  obtain ⟨w₂, marked, mark⟩ := run_writeFATEntry layout taken.in_table 0x0ffffff8 w₁
  have location : inode.dentryLocation = (files i).dentryLocation := by rw [made]
  have named : inode.firstCluster = a := by rw [made]
  have place : inode.dentryLocation = 0 ∨
      2 ≤ inode.dentryLocation ∧ inode.dentryLocation < 2 ^ 28 :=
    location ▸ entered.imp_right fun valid => ⟨valid.data, valid_small valid⟩
  have linked := marked_linked layout (putEntry_tables layout place disk) mark
  have begun := order.started empty (new_valid unmarked taken data) data taken.free linked
  have rest := supply.rest taken (linked_free data (fun other => absurd rfl other) linked)
  rw [← made] at begun
  obtain ⟨started, file⟩ : ∃ started, started = Function.update files i inode := ⟨_, rfl⟩
  rw [← file] at begun
  have here : started i = inode := file ▸ Function.update_self ..
  have one : Function.update len i 1 i = 1 := Function.update_self ..
  have same : ∀ other, Function.update started i other = Function.update files i other := by
    intro other
    rw [file, Function.update_idem]
  rw [if_neg full, ← made] at ran
  rw [run_bind, put, Option.bind_some, run_bind, marked, Option.bind_some, ← here] at ran
  rw [← same]
  have still : HasEntry fsbi (started i) := by
    rw [here, HasEntry, location]
    exact entered
  refine writeAt_order layout int still (fun s leave w₃ looped begins => ?_) ran
  have place := begins.position
  have left := begins.index
  have offset : s.offset = 0 := by
    rw [begins.offset, start]
    exact Int.zero_tmod _
  have target : s.target fsbi = 0 := by
    rw [Writing.target, begins.flags, if_pos rfl, begins.sector]
  have at_end : AtEnd fsbi w₂ started (Function.update len i 1) i s := by
    refine ⟨begun, ⟨0, one, ?_⟩, ?_, fun k within => ?_, ?_⟩
    · rw [here, begins.cluster]
      exact named
    · rw [one]
      omega
    · rw [target]
      unfold TableSector
      omega
    · rw [begins.offset, left]
      exact rest
  have h : Room fsbi s.offset (roomAt fsbi position) :=
    begins.offset ▸ room_at layout.mounted (Int.natCast_nonneg position)
  obtain ⟨len', order', ends⟩ := pieces_order layout unmarked looped h at_end
  refine ⟨len', order', fun last done => ?_⟩
  obtain ⟨reached, within⟩ := ends last done
  exact ⟨by omega, within⟩

theorem write_next_order (unmarked : Unmarked fsbi) {w w' : World} {buf count position n : Nat}
    {index : Int} {buffer : Memory} {r : Int × IndexNode × Int} (int : toInt32 count = index)
    (order : InOrder fsbi w files len) (entered : HasEntry fsbi (files i))
    (started : (files i).firstCluster ≠ 0) (within : position ≤ (files i).fileSize)
    (links : position / fsbi.bytesPerCluster = n) (forward : 0 ≤ position + index)
    (fits : position + index ≤ (len i * fsbi.bytesPerCluster : Nat) ∨
      n + 1 = len i ∧ Strayless fsbi w
        (crossings fsbi ((position : Int).tmod fsbi.bytesPerCluster) index))
    (ran : run (do
      let cluster ← walkChain fsbi n (files i).firstCluster
      if cluster = 0 then return (-ENOSPC, files i, (position : Int))
      writeAt fsbi (files i) cluster false buffer buf count position) w = some (r, w')) :
    (∃ len', InOrder fsbi w' (Function.update files i r.2.1) len') ∧ HasEntry fsbi r.2.1 := by
  obtain ⟨own, some_clusters⟩ := order.chain i started
  have spread := own.spread some_clusters
  have room := order.room i
  have some_bytes := layout.mounted.some_bytes
  have reach : n ≤ len i := by
    rw [← links]
    exact Nat.div_le_of_le_mul (by rw [Nat.mul_comm]; omega)
  have data := spread.data n reach
  have small := spread.small n reach
  have walked := run_walkChain fsbi w n (files i).firstCluster
  simp only [run_bind, walked, Option.bind_some] at ran
  rw [if_neg (by omega)] at ran
  have split := Nat.div_add_mod' position fsbi.bytesPerCluster
  rw [links] at split
  refine writeAt_order layout int entered (fun s leave w₁ looped begins => ?_) ran
  have place := begins.position
  have left := begins.index
  have at_cluster := begins.cluster
  have offset : s.offset = (position % fsbi.bytesPerCluster : Nat) := begins.offset
  have h : Room fsbi s.offset (roomAt fsbi position) :=
    begins.offset ▸ room_at layout.mounted (Int.natCast_nonneg position)
  have fill := h.fits
  have clear : Clear fsbi (s.target fsbi) := by
    rw [Writing.target, begins.flags, if_neg Bool.false_ne_true, at_cluster]
    exact clear_cluster layout data small
  rcases fits with stays | ⟨last, supply⟩
  · have either : s.index ≤ roomAt fsbi position ∨
        InTable fsbi s.cluster ∧ fatEntry fsbi w s.cluster < endMark := by
      by_cases before : n + 1 < len i
      · have next := (own.valid (n + 1) before).no_mark
        rw [clusterAt_succ] at next
        rw [at_cluster]
        exact Or.inr ⟨(own.valid n (by omega)).in_table, next⟩
      · have whole : len i * fsbi.bytesPerCluster ≤ (n + 1) * fsbi.bytesPerCluster :=
          Nat.mul_le_mul_right _ (by omega)
        rw [Nat.succ_mul] at whole
        left
        omega
    obtain ⟨done, tables⟩ := pieces_quiet layout looped h clear either
    refine ⟨len, order.frame layout tables, fun last ended => ?_⟩
    rw [done] at ended
    cases ended
    dsimp only
    rw [place, left]
    exact ⟨forward, stays⟩
  · have next : len i = n + 1 := last.symm
    have whole : (n + 1) * fsbi.bytesPerCluster =
        n * fsbi.bytesPerCluster + fsbi.bytesPerCluster := Nat.succ_mul _ _
    have at_end : AtEnd fsbi w files len i s := by
      refine ⟨order, ⟨n, next, at_cluster.symm⟩, ?_, clear, ?_⟩
      · rw [next]
        omega
      · rw [begins.offset, left]
        exact supply
    obtain ⟨len', order', ends⟩ := pieces_order layout unmarked looped h at_end
    refine ⟨len', order', fun last done => ?_⟩
    obtain ⟨reached, inside⟩ := ends last done
    exact ⟨by omega, inside⟩

end loop

/-- What keeps a write of index bytes, index = (int)count, in the clusters of the file: it does not
    come to a negative position; bytes behind the last cluster are written from that cluster on, or
    to a file without a cluster where the first sectors of the volume are clear of the tables; and
    the entries that it takes have clusters. -/
def Fits (fsbi : SbInfo) (w : World) (inode : IndexNode) (position : Nat) (index : Int) : Prop :=
  let ends := crossings fsbi ((position : Int).tmod fsbi.bytesPerCluster) index
  if inode.firstCluster = 0 then
    (∀ c, InTable fsbi c → fatEntry fsbi w c ≠ 0) ∨
    0 ≤ index ∧ fsbi.sectorPerCluster ≤ fsbi.FAT1Firstsector ∧ Strayless fsbi w (ends + 1)
  else
    0 ≤ position + index ∧ ∀ len, Chain fsbi w inode.firstCluster len →
      position + index ≤ (len * fsbi.bytesPerCluster : Nat) ∨
      position / fsbi.bytesPerCluster + 1 = len ∧ Strayless fsbi w ends

structure Disk (ι : Type) where
  disk : Memory
  files : ι → IndexNode

/- FAT32_write of a file, with the memory of its caller and what the blocks it takes hold. -/
structure Write (ι : Type) where
  file : ι
  buf : Nat
  count : Nat
  position : Nat
  memory : Memory
  fresh : List Memory

section runs
variable {ι : Type} [DecidableEq ι] {fsbi : SbInfo}

def Disk.world (s : Disk ι) (e : Write ι) : World := ⟨s.disk, e.memory, e.fresh, [], []⟩

/- The disk and the inode behind a call; none where it faults. -/
def Disk.next (fsbi : SbInfo) (s : Disk ι) (e : Write ι) : Option (Disk ι) :=
  (run (FAT32Write fsbi (s.files e.file) e.buf e.count e.position) (s.world e)).map fun r =>
    ⟨r.2.disk, Function.update s.files e.file r.1.2.1⟩

def Step (fsbi : SbInfo) (s : Disk ι) (e : Write ι) (t : Disk ι) : Prop :=
  s.next fsbi e = some t ∧ e.position ≤ (s.files e.file).fileSize

def Allowed (fsbi : SbInfo) (s : Disk ι) (e : Write ι) : Prop :=
  Fits fsbi (s.world e) (s.files e.file) e.position (toInt32 e.count)

/-- Every chain is finite and ended, in the data area, apart from the others and long enough. -/
def Sound (fsbi : SbInfo) (s : Disk ι) : Prop := ∃ len, InOrder fsbi (volume s.disk) s.files len

/- And the entries of the files lie in clusters. -/
structure Kept (fsbi : SbInfo) (s : Disk ι) : Prop where
  sound : Sound fsbi s
  entered : ∀ i, HasEntry fsbi (s.files i)

theorem write_order (layout : Layout fsbi) (unmarked : Unmarked fsbi) {files : ι → IndexNode}
    {len : ι → Nat} {i : ι} {w w' : World} {buf count position : Nat} {index : Int}
    {r : Int × IndexNode × Int} (int : toInt32 count = index) (order : InOrder fsbi w files len)
    (entered : HasEntry fsbi (files i)) (within : position ≤ (files i).fileSize)
    (fits : Fits fsbi w (files i) position index)
    (ran : run (FAT32Write fsbi (files i) buf count position) w = some (r, w')) :
    (∃ len', InOrder fsbi w' (Function.update files i r.2.1) len') ∧ HasEntry fsbi r.2.1 := by
  have some_bytes := layout.mounted.some_bytes
  have not_zero : ¬ fsbi.bytesPerCluster = 0 := by omega
  have tables : SameTables fsbi w { w with fresh := w.fresh.tail } := fun _ _ => rfl
  have entries : ∀ c, InTable fsbi c → fatEntry fsbi { w with fresh := w.fresh.tail } c =
      fatEntry fsbi w c := fun c inside => fatEntry_frame layout tables inside
  have order' := order.frame layout tables
  have room := order.room i
  simp only [FAT32Write, if_neg not_zero, run_bind, alloc, run, Option.bind_some] at ran
  unfold Fits at fits
  by_cases empty : (files i).firstCluster = 0
  · rw [if_pos empty] at ran fits
    have start : position = 0 := by
      rw [order.bare i empty] at room
      omega
    refine write_first_order layout unmarked int order' entered empty start ?_ ran
    rcases fits with used | ⟨forward, low, supply⟩
    · exact Or.inl fun c inside => by
        rw [entries c inside]
        exact used c inside
    · exact Or.inr ⟨forward, low, supply.congr entries⟩
  · rw [if_neg empty] at ran fits
    have chain := (order.chain i empty).1
    have short := chain_short chain
    have reach : position / fsbi.bytesPerCluster ≤ len i :=
      Nat.div_le_of_le_mul (by rw [Nat.mul_comm]; omega)
    have countable : Countable fsbi position := by
      unfold Fat32.Countable
      omega
    rw [links_eq countable, Int.toNat_natCast] at ran
    refine write_next_order layout unmarked int order' entered empty within rfl fits.1 ?_ ran
    rcases fits.2 _ chain with stays | ⟨last, supply⟩
    · exact Or.inl stays
    · exact Or.inr ⟨last, supply.congr entries⟩

theorem step_kept (layout : Layout fsbi) (unmarked : Unmarked fsbi) {s t : Disk ι} {e : Write ι}
    (kept : Kept fsbi s) (step : Guarded (Allowed fsbi) (Step fsbi) s e t) : Kept fsbi t := by
  obtain ⟨⟨next, within⟩, fits⟩ := step
  obtain ⟨len, order⟩ := kept.sound
  obtain ⟨⟨r, w'⟩, ran, made⟩ := Option.map_eq_some_iff.mp next
  obtain ⟨index, int⟩ : ∃ index, toInt32 e.count = index := ⟨_, rfl⟩
  unfold Allowed at fits
  rw [int] at fits
  have here : SameTables fsbi (volume s.disk) (s.world e) := fun _ _ => rfl
  obtain ⟨⟨len', order'⟩, entry⟩ := write_order layout unmarked int (order.frame layout here)
    (kept.entered e.file) within fits ran
  have tables : SameTables fsbi w' (volume w'.disk) := fun _ _ => rfl
  rw [← made]
  refine ⟨⟨len', order'.frame layout tables⟩, fun j => ?_⟩
  by_cases here : j = e.file
  · rw [here]
    dsimp only
    rw [Function.update_self]
    exact entry
  · dsimp only
    rw [Function.update_of_ne here]
    exact kept.entered j

end runs

/-- Runs of FAT32_write on the files of a volume: where every call fits, the chains stay sound. -/
theorem chains_sound {ι : Type} [DecidableEq ι] {fsbi : SbInfo} (layout : Layout fsbi)
    (unmarked : Unmarked fsbi) {s t : Disk ι} {es : List (Write ι)} (start : Sound fsbi s)
    (entered : ∀ i, HasEntry fsbi (s.files i))
    (ran : Steps (Guarded (Allowed fsbi) (Step fsbi)) s es t) : Sound fsbi t :=
  (invariant_of_step (fun _ _ _ kept step => step_kept layout unmarked kept step) ran
    ⟨start, entered⟩).sound

def oneFile (size : Nat) : Disk Unit := ⟨markedDisk, fun _ => { readmeInode with fileSize := size }⟩

theorem one_unmarked : Unmarked oneSectorVolume := by
  intro c data
  have inside := data.2
  dsimp only [oneSectorVolume] at inside
  unfold endMark
  omega

theorem one_well : WellFormed oneSectorVolume (volume markedDisk) :=
  ⟨oneSector_layout, by decide, by decide +kernel, by decide⟩

theorem one_chain : Chain oneSectorVolume (volume markedDisk) 3 1 := by
  refine ⟨fun k less => ?_, by decide +kernel⟩
  rw [Nat.lt_one_iff.mp less]
  exact readme_valid (by decide) (by decide)

theorem one_sound {size : Nat} (room : size ≤ 512) : Sound oneSectorVolume (oneFile size) := by
  refine ⟨fun _ => 1, fun _ _ => ⟨one_chain, by decide⟩, fun _ empty => ?_, fun _ k less => ?_,
    fun _ _ other => absurd rfl other, fun _ => ?_⟩
  · exact absurd empty (by decide : ¬ 3 = 0)
  · rw [Nat.lt_one_iff.mp less]
    exact (by decide : 2 ≤ 3 ∧ 4 + (3 - 1) * 1 ≤ 0 + 8)
  · exact room

theorem one_entered (size : Nat) (i : Unit) : HasEntry oneSectorVolume ((oneFile size).files i) :=
  Or.inr (readme_valid (by decide : 2 ≤ 2) (by decide : 2 < 128))

def append (position count : Nat) : Write Unit := ⟨(), 4096, count, position, fun _ => 0x42, []⟩

theorem chains_sound_readme : ∃ t, (oneFile 1).next oneSectorVolume (append 1 512) = some t ∧
    Sound oneSectorVolume t := by
  obtain ⟨t, wrote⟩ := Option.isSome_iff_exists.mp
    (by decide +kernel : ((oneFile 1).next oneSectorVolume (append 1 512)).isSome = true)
  refine ⟨t, wrote, chains_sound oneSector_layout one_unmarked (one_sound (by decide))
    (one_entered 1) (.cons ⟨⟨wrote, by decide⟩, ?_⟩ (.nil t))⟩
  have same : SameTables oneSectorVolume (volume markedDisk)
    ((oneFile 1).world (append 1 512)) := fun _ _ => rfl
  have here := (one_chain.frame oneSector_layout same).2
  have index : toInt32 ((512 : Nat) : Int) = 512 := by decide
  have crossed : crossings oneSectorVolume
      (((1 : Nat) : Int).tmod oneSectorVolume.bytesPerCluster) 512 = 1 := by decide
  have fits : Fits oneSectorVolume ((oneFile 1).world (append 1 512)) readmeInode 1 512 := by
    unfold Fits
    rw [if_neg (by decide)]
    refine ⟨by decide, fun len chain => Or.inr ⟨chain_length here chain, ?_⟩⟩
    rw [crossed]
    intro c free stray
    have behind : 6 ≤ c := by
      by_contra before
      have low : c < 2 := by
        by_contra data
        exact stray ⟨by omega, by dsimp only [oneSectorVolume]; omega⟩
      have used : ∀ d < 2, fatEntry oneSectorVolume ((oneFile 1).world (append 1 512)) d ≠ 0 := by
        decide +kernel
      exact used c low free.2
    have one : 1 ≤ Nat.count (fun d =>
        fatEntry oneSectorVolume ((oneFile 1).world (append 1 512)) d = 0) 6 := by decide +kernel
    exact Nat.le_trans one (Nat.count_monotone _ behind)
  unfold Allowed
  rw [show toInt32 ((append 1 512).count : Int) = 512 from index]
  exact fits

/- A byte at the end of a file that fills its cluster makes it larger than its chain. -/
theorem size_past_chain :
    ¬ ∀ (fsbi : SbInfo) (s t : Disk Unit) (es : List (Write Unit)),
      WellFormed fsbi (volume s.disk) → Unmarked fsbi → Sound fsbi s →
        (∀ i, HasEntry fsbi (s.files i)) → Steps (Step fsbi) s es t → Sound fsbi t := by
  intro claim
  have left : ((oneFile 512).next oneSectorVolume (append 512 1)).map (fun t =>
      ((t.files ()).fileSize, (t.files ()).firstCluster,
        fatEntry oneSectorVolume (volume t.disk) 3)) = some (513, 3, 0x0fffffff) := by
    decide +kernel
  obtain ⟨t, wrote, left⟩ := Option.map_eq_some_iff.mp left
  simp only [Prod.mk.injEq] at left
  obtain ⟨size, first, mark⟩ := left
  obtain ⟨len, order⟩ := claim _ _ _ _ one_well one_unmarked (one_sound (Nat.le_refl _))
    (one_entered 512) (.cons ⟨wrote, by decide⟩ (.nil t))
  have started : (t.files ()).firstCluster ≠ 0 := by
    rw [first]
    decide
  have chain := (order.chain () started).1
  rw [first] at chain
  have one : Chain oneSectorVolume (volume t.disk) 3 1 := by
    refine ⟨fun k less => ?_, ?_⟩
    · rw [Nat.lt_one_iff.mp less]
      exact readme_valid (by decide : 2 ≤ 3) (by decide : 3 < 128)
    · rw [clusterAt_succ, clusterAt, mark]
      decide
  have room := order.room ()
  rw [size, chain_length chain one] at room
  exact absurd room (by decide)

end TableRuns

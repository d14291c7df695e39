import Q2os.Chains
import Mathlib.Data.Nat.Count

/- The free entries of the table against the ends of clusters that FAT32_write crosses: where the
   loop leaves with -ENOSPC. -/
namespace Fat32
open ByteMemory BlockProgram UserPointers

def endMark : Nat := 0x0ffffff8

def freeEntries (fsbi : SbInfo) (w : World) : Nat :=
  Nat.count (fun c => fatEntry fsbi w c = 0) (128 * fsbi.sectorPerFAT)

/- The entries it can give: none while entry 0 is free. -/
def usable (fsbi : SbInfo) (w : World) : Nat :=
  if fatEntry fsbi w 0 = 0 then 0 else freeEntries fsbi w

/- The ends of clusters between the index bytes from offset on. -/
def crossings (fsbi : SbInfo) (offset index : Int) : Nat :=
  ((offset + index - 1) / fsbi.bytesPerCluster).toNat

/- No sector of the table in the cluster's worth of sectors from one on. -/
def Clear (fsbi : SbInfo) (sector : Nat) : Prop :=
  ∀ i < fsbi.sectorPerCluster, ¬ TableSector fsbi (sector + i)

def Writing.target (fsbi : SbInfo) (s : Writing) : Nat :=
  if s.flags then s.sector else clusterSector fsbi s.cluster

def Writing.behind (fsbi : SbInfo) (s : Writing) (length : Int) (buffer : Memory) : Writing :=
  { s with sector := s.target fsbi }.past length buffer

/-- The loop has a cluster of the table and writes outside of the tables. -/
structure Steady (fsbi : SbInfo) (s : Writing) : Prop where
  in_table : InTable fsbi s.cluster
  some_cluster : s.cluster ≠ 0
  clear : Clear fsbi (s.target fsbi)

theorem count_taken {p q : Nat → Prop} [DecidablePred p] [DecidablePred q] {n a : Nat}
    (inside : a < n) (held : p a) (rest : ∀ c < n, q c ↔ p c ∧ c ≠ a) :
    Nat.count q n + 1 = Nat.count p n := by
  rw [Nat.count_eq_card_filter_range, Nat.count_eq_card_filter_range]
  have taken : (Finset.range n).filter q = ((Finset.range n).filter p).erase a := by
    ext c
    simp only [Finset.mem_filter, Finset.mem_range, Finset.mem_erase]
    constructor
    · intro left
      have both := (rest c left.1).mp left.2
      exact ⟨both.2, left.1, both.1⟩
    · intro left
      exact ⟨left.2.1, (rest c left.2.1).mpr ⟨left.2.2, left.1⟩⟩
  have member : a ∈ (Finset.range n).filter p :=
    Finset.mem_filter.mpr ⟨Finset.mem_range.mpr inside, held⟩
  rw [taken, Finset.card_erase_add_one member]

theorem freeEntries_same {fsbi : SbInfo} {w w' : World}
    (same : ∀ c, InTable fsbi c → fatEntry fsbi w' c = fatEntry fsbi w c) :
    freeEntries fsbi w' = freeEntries fsbi w := by
  unfold freeEntries
  rw [Nat.count_eq_card_filter_range, Nat.count_eq_card_filter_range]
  congr 1
  apply Finset.filter_congr
  intro c member
  rw [same c (Finset.mem_range.mp member)]

theorem crossings_more {fsbi : SbInfo} {offset index : Int} {room : Nat}
    (h : Room fsbi offset room) (more : ¬ index ≤ room) :
    crossings fsbi offset index = crossings fsbi 0 (index - room) + 1 := by
  have fits := h.fits
  have some_room := h.some_room
  have start := h.start
  have turn : offset + index - 1 = 0 + (index - room) - 1 + fsbi.bytesPerCluster := by omega
  have low : 0 ≤ (0 + (index - room) - 1) / (fsbi.bytesPerCluster : Int) :=
    Int.ediv_nonneg (by omega) (by omega)
  unfold crossings
  rw [turn, Int.add_ediv_of_dvd_right (Int.dvd_refl _), Int.ediv_self (by omega)]
  omega

section round
variable {fsbi : SbInfo}

theorem putSectors_tables (w : World) {sector : Nat} (clear : Clear fsbi sector) (data : Memory) :
    SameTables fsbi w (w.putSectors sector fsbi.sectorPerCluster data) := by
  intro x table
  refine copy_outside _ _ _ _ _ _ ?_
  by_contra inside
  have here := clear (x / 512 - sector) (by omega)
  have place : sector + (x / 512 - sector) = x / 512 := by omega
  rw [place] at here
  exact here table

theorem run_copyIn_disk {w w' : World} {buffer result : Memory} {offset length : Int} {buf : Nat}
    (ran : run (copyIn fsbi buffer offset buf length) w = some (result, w')) : w'.disk = w.disk := by
  simp only [copyIn] at ran
  split at ran
  · cases ran
    rfl
  · simp only [run_bind, load, run, Option.bind_some] at ran
    split at ran
    · cases ran
      rfl
    · cases ran

def goOn (fsbi : SbInfo) (again : Writing → Prog Leave) (s : Writing) : Prog Leave := do
  let next ← DISK1FAT32ReadFATEntry fsbi s.cluster
  if next ≥ 0x0ffffff8 then
    match ← extendChain fsbi s with
    | none => return .full s.position
    | some s => again s
  else again s

theorem run_loadCluster (s : Writing) (w : World) :
    ∃ buffer, run (loadCluster fsbi s) w =
      some (some { s with sector := s.target fsbi, buffer := buffer }, w) := by
  unfold loadCluster Writing.target
  by_cases flags : s.flags = true
  · refine ⟨s.buffer, ?_⟩
    rw [if_pos flags, if_pos flags]
    rfl
  · refine ⟨clusterBuffer fsbi (w.sectors (clusterSector fsbi s.cluster)), ?_⟩
    rw [if_neg flags, if_neg flags]
    rfl

/- A round: the last one leaves the loop, another one goes on with the tables as they were. -/
theorem run_round (mounted : Mounted fsbi) {fuel room : Nat} {s : Writing} {w w' : World}
    {leave : Leave} (h : Room fsbi s.offset room)
    (ran : run (writePieces fsbi (fuel + 1) s) w = some (leave, w')) :
    (s.index ≤ room ∧ leave = .done ⟨0, 0, s.position + s.index⟩ ∧
      (Clear fsbi (s.target fsbi) → SameTables fsbi w w')) ∨
    (¬ s.index ≤ room ∧ ∃ buffer w₁, (Clear fsbi (s.target fsbi) → SameTables fsbi w w₁) ∧
      run (goOn fsbi (writePieces fsbi fuel)
        (s.behind fsbi room buffer)) w₁ = some (leave, w')) := by
  obtain ⟨buffer, loaded⟩ := @run_loadCluster fsbi s w
  simp only [writePieces, run_bind, loaded, Option.bind_some, writePiece] at ran
  obtain ⟨⟨result, w₁⟩, copied, ran⟩ := Option.bind_eq_some_iff.mp ran
  have disk := run_copyIn_disk copied
  have same : Clear fsbi (s.target fsbi) → SameTables fsbi w
      (w₁.putSectors (s.target fsbi) fsbi.sectorPerCluster result) := by
    intro clear x table
    rw [putSectors_tables w₁ clear result x table, disk]
  simp only [writeSectors, run, Option.bind_some, Bool.true_eq_false, ↓reduceIte] at ran
  by_cases last : s.index ≤ room
  · left
    have whole := pieceLength_last h last
    simp only [whole, Writing.past, Int.sub_self, ↓reduceIte] at ran
    cases ran
    exact ⟨last, rfl, same⟩
  · right
    have piece := pieceLength_more mounted h last
    have unfinished : ¬ s.index - room = 0 := by omega
    refine ⟨last, result, w₁.putSectors (s.target fsbi) fsbi.sectorPerCluster result, same, ?_⟩
    simp only [piece, Writing.past, unfinished, ↓reduceIte] at ran
    exact ran

theorem target_behind (s : Writing) (length : Int) (buffer : Memory) :
    (s.behind fsbi length buffer).target fsbi = s.target fsbi := by
  simp only [Writing.behind, Writing.past, Writing.target]
  split
  · rfl
  · rfl

theorem run_goOn (again : Writing → Prog Leave) (s : Writing) (w : World) :
    run (goOn fsbi again s) w =
      if endMark ≤ fatEntry fsbi w s.cluster then
        run (do
          match ← extendChain fsbi s with
          | none => return .full s.position
          | some s => again s) w
      else run (again s) w := by
  simp only [goOn, run_bind, run_readFATEntry, Option.bind_some, ge_iff_le, endMark]
  split
  · rw [run_bind]
  · rfl

theorem usable_same {w w' : World} (in_table : InTable fsbi 0)
    (same : ∀ c, InTable fsbi c → fatEntry fsbi w' c = fatEntry fsbi w c) :
    usable fsbi w' = usable fsbi w := by
  unfold usable
  rw [same 0 in_table, freeEntries_same same]

theorem zero_in_table {c : Nat} (in_table : InTable fsbi c) : InTable fsbi 0 := by
  unfold InTable at in_table ⊢
  omega

theorem run_find_usable (layout : Layout fsbi) (w : World) :
    (usable fsbi w = 0 ∧ run (FAT32FindAvailableCluster fsbi) w = some (0, w)) ∨
    ∃ a, a ≠ 0 ∧ FirstFree fsbi w a ∧ run (FAT32FindAvailableCluster fsbi) w = some (a, w) := by
  obtain ⟨a, found, free | used⟩ := run_find layout w
  · by_cases zero : a = 0
    · left
      rw [zero] at free found
      exact ⟨if_pos free.free, found⟩
    · exact Or.inr ⟨a, zero, free, found⟩
  · left
    rw [used.1] at found
    have none_left : freeEntries fsbi w = 0 :=
      Nat.count_iff_forall_not.mpr fun c inside => used.2 c inside
    refine ⟨?_, found⟩
    unfold usable
    rw [none_left, ite_self]

theorem usable_taken {w w' : World} {a : Nat} (not_first : a ≠ 0) (taken : FirstFree fsbi w a)
    (first : fatEntry fsbi w' 0 ≠ 0)
    (rest : ∀ c, InTable fsbi c → (fatEntry fsbi w' c = 0 ↔ fatEntry fsbi w c = 0 ∧ c ≠ a)) :
    usable fsbi w' + 1 = usable fsbi w := by
  have used : fatEntry fsbi w 0 ≠ 0 := taken.first 0 (Nat.pos_of_ne_zero not_first)
  unfold usable
  rw [if_neg used, if_neg first]
  exact count_taken taken.in_table taken.free rest

/- A chain goes on into a free entry while one can be given. -/
theorem run_extendChain (layout : Layout fsbi) {s : Writing} {w : World}
    (in_table : InTable fsbi s.cluster) (some_cluster : s.cluster ≠ 0)
    (ends : endMark ≤ fatEntry fsbi w s.cluster) :
    (usable fsbi w = 0 ∧ run (extendChain fsbi s) w = some (none, w)) ∨
    ∃ a w', run (extendChain fsbi s) w = some (some { s with cluster := a, flags := true }, w') ∧
      InTable fsbi a ∧ a ≠ 0 ∧ usable fsbi w' + 1 = usable fsbi w := by
  rcases run_find_usable layout w with ⟨none_left, found⟩ | ⟨a, not_first, taken, found⟩
  · left
    refine ⟨none_left, ?_⟩
    simp only [extendChain, run_bind, found, Option.bind_some, ↓reduceIte]
    rfl
  right
  obtain ⟨w₁, linked, link⟩ := run_writeFATEntry layout in_table a w
  obtain ⟨w₂, marked, mark⟩ := run_writeFATEntry layout taken.in_table 0x0ffffff8 w₁
  have small : a < 2 ^ 28 := by
    have inside := taken.in_table
    have size := layout.table_size
    unfold InTable at inside
    omega
  have other : a ≠ s.cluster := by
    intro same
    have free := taken.free
    rw [same] at free
    unfold endMark at ends
    omega
  have zero_in := zero_in_table in_table
  refine ⟨a, w₂, ?_, taken.in_table, not_first, usable_taken not_first taken ?_ ?_⟩
  · simp only [extendChain, run_bind, found, Option.bind_some, if_neg not_first, linked, marked]
    rfl
  · rw [mark.entry 0 zero_in, if_neg (Ne.symm not_first), link.entry 0 zero_in,
      if_neg (Ne.symm some_cluster)]
    exact taken.first 0 (Nat.pos_of_ne_zero not_first)
  · intro c inside
    rw [mark.entry c inside, link.entry c inside]
    by_cases new : c = a
    · rw [if_pos new]
      simp [new]
    · rw [if_neg new]
      by_cases old : c = s.cluster
      · rw [if_pos old, old, Nat.mod_eq_of_lt small]
        unfold endMark at ends
        omega
      · rw [if_neg old]
        exact ⟨fun free => ⟨free, new⟩, fun free => free.1⟩

theorem Steady.behind {s : Writing} (steady : Steady fsbi s) (length : Int) (buffer : Memory) :
    Steady fsbi (s.behind fsbi length buffer) :=
  ⟨steady.in_table, steady.some_cluster, (target_behind s length buffer).symm ▸ steady.clear⟩

/-- The loop runs to its end, or leaves with -ENOSPC where the entries run out: at the end of the
    cluster that takes the last of them. -/
theorem loop_leaves (layout : Layout fsbi) {fuel room : Nat} {s : Writing} {w w' : World}
    {leave : Leave} (h : Room fsbi s.offset room) (steady : Steady fsbi s)
    (ran : run (writePieces fsbi fuel s) w = some (leave, w')) :
    leave = .done ⟨0, 0, s.position + s.index⟩ ∨
      endMark ≤ fatEntry fsbi w s.cluster ∧ usable fsbi w < crossings fsbi s.offset s.index ∧
        leave = .full (s.position + room + (usable fsbi w : Int) * fsbi.bytesPerCluster) := by
  induction fuel generalizing s w room with
  | zero => cases ran
  | succ fuel ih =>
    rcases run_round layout.mounted h ran with last | more
    · exact Or.inl last.2.1
    · obtain ⟨more, buffer, w₁, same, ran⟩ := more
      have tables := same steady.clear
      have entries : ∀ c, InTable fsbi c → fatEntry fsbi w₁ c = fatEntry fsbi w c :=
        fun c inside => fatEntry_frame layout tables inside
      have left := usable_same (zero_in_table steady.in_table) entries
      have crossed := crossings_more h more
      have behind := steady.behind room buffer
      have at_end := entries _ steady.in_table
      have cluster : (s.behind fsbi room buffer).cluster = s.cluster := rfl
      have sector : (s.behind fsbi room buffer).sector = s.target fsbi := rfl
      have offset : (s.behind fsbi room buffer).offset = 0 := rfl
      have index : (s.behind fsbi room buffer).index = s.index - room := rfl
      have position : (s.behind fsbi room buffer).position = s.position + room := rfl
      have far : s.position + room + (s.index - room) = s.position + s.index := by omega
      generalize s.behind fsbi room buffer = m at *
      have whole : Room fsbi m.offset fsbi.bytesPerCluster := offset ▸ room_whole layout.mounted
      rw [run_goOn] at ran
      rw [← at_end, ← left, crossed]
      by_cases ends : endMark ≤ fatEntry fsbi w₁ m.cluster
      · rw [if_pos ends, run_bind] at ran
        rcases run_extendChain layout behind.in_table behind.some_cluster ends with
          ⟨none_left, stopped⟩ | ⟨a, w₂, extended, in_table, some_cluster, one_less⟩
        · right
          rw [stopped, Option.bind_some] at ran
          cases ran
          rw [cluster] at ends
          refine ⟨ends, by omega, ?_⟩
          rw [none_left, position, Int.natCast_zero, Int.zero_mul, Int.add_zero]
        · rw [extended, Option.bind_some] at ran
          have linked : Steady fsbi { m with cluster := a, flags := true } := by
            refine ⟨in_table, some_cluster, ?_⟩
            simp only [Writing.target, ↓reduceIte, sector]
            exact steady.clear
          rcases @ih _ { m with cluster := a, flags := true } _ whole linked ran with
            done | ⟨_, few, full⟩
          · left
            dsimp only at done
            rw [index, position, far] at done
            exact done
          · right
            dsimp only at few full
            rw [offset, index] at few
            rw [cluster] at ends
            refine ⟨ends, by omega, full.trans (congrArg _ ?_)⟩
            rw [position, ← one_less, Int.natCast_add, Int.add_mul, Int.natCast_one, Int.one_mul]
            omega
      · rw [if_neg ends] at ran
        rcases ih whole behind ran with done | ⟨marked, _⟩
        · left
          rw [index, position, far] at done
          exact done
        · exact absurd marked ends

theorem single_done (mounted : Mounted fsbi) {fuel room : Nat} {s : Writing} {w w' : World}
    {leave : Leave} (h : Room fsbi s.offset room) (last : s.index ≤ room)
    (ran : run (writePieces fsbi (fuel + 1) s) w = some (leave, w')) :
    leave = .done ⟨0, 0, s.position + s.index⟩ := by
  rcases run_round mounted h ran with single | more
  · exact single.2.1
  · exact absurd last more.1

end round

end Fat32

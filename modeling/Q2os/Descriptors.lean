import Q2os.PieceWrites
import Q2os.Run

/- Descriptors opened on one file: each has an inode of its own, and what they agree on is
   what the disk holds. -/
namespace Descriptors
open ByteMemory BlockProgram UserMemory Fat32 NameMatching OpenFiles Run

structure SharedFile where
  path : List Component
  own : Nat → Prop
  location : Nat
  idx : Nat
  first : Nat
  length : Nat

structure Content where
  size : Nat
  bytes : Memory

/- The bytes a read of count bytes at a position is to have. -/
def Content.due (c : Content) (position count : Nat) : Nat := min count (c.size - position)

def Content.overwritten (c : Content) (source : Memory) (position buf n : Nat) : Content :=
  ⟨max c.size (position + n), copy source buf c.bytes position n⟩

/-- What a call that came back with a result made of the file: O_TRUNC empties it, a write puts
    its bytes at the position of the descriptor. -/
def Content.after (c : Content) (files : Files) (e : Event) (ret : Int) : Content :=
  match e.call with
  | .opening _ flags => if 0 ≤ ret ∧ flags &&& oTrunc ≠ 0 then { c with size := 0 } else c
  | .write fd buf _ =>
    match files fd.toNat with
    | some filp =>
      if 0 < ret then c.overwritten e.memory filp.position.toNat buf ret.toNat else c
    | none => c
  | _ => c

structure Shared where
  session : Session
  content : Content

def Shared.next (v : Volume) (s : Shared) (e : Event) : Option Shared :=
  (s.session.answer v e).map fun reply =>
    ⟨⟨reply.2.disk, reply.1.2⟩, s.content.after s.session.files e reply.1.1⟩

structure Behind (files : Files) (fd count : Int) (filp : OpenFile) : Prop where
  good : ¬ BadDescriptor fd
  counted : ¬ count < 0
  opened : files fd.toNat = some filp

/-- A read returns as many bytes as the file has for it, and they are those of the file. -/
def Sees (v : Volume) (s : Shared) (e : Event) : Prop :=
  ∀ fd buf count filp, e.call = .read fd buf count → Behind s.session.files fd count filp →
    ∃ files w, s.session.answer v e =
        some ((((s.content.due filp.position.toNat count.toNat : Nat) : Int), files), w) ∧
      ∀ k < s.content.due filp.position.toNat count.toNat,
        w.memory (buf + k) = s.content.bytes (filp.position.toNat + k)

def volume (disk : Memory) : World := ⟨disk, zeros, [], [], []⟩

def OnPath (v : Volume) (f : SharedFile) (start : Session) (e : Event) : Prop :=
  ∀ path flags, e.call = .opening path flags →
    path = f.path ∧ Leads v f.own f.location f.idx (start.world e) v.rootCluster path

/- Counts and offsets are longs. -/
def Long : Call → Prop
  | .read _ _ count => count < 2 ^ 63
  | .write _ _ count => count < 2 ^ 63
  | .lseek _ offset _ => offset < 2 ^ 63
  | _ => True

def Step (v : Volume) (f : SharedFile) (start : Session) (s : Shared) (e : Event) (t : Shared) :
    Prop :=
  s.next v e = some t ∧ OnPath v f start e ∧ Long e.call

/-- The inode of the descriptor gives the read as many bytes as the file has for it. -/
structure ReadsWell (f : SharedFile) (c : Content) (filp : OpenFile) (buf count : Nat) :
    Prop where
  started : f.first ≠ 0
  current : min count (filp.inode.fileSize - filp.position.toNat) = c.due filp.position.toNat count
  int : c.due filp.position.toNat count < 2 ^ 31
  caller : Caller buf (c.due filp.position.toNat count)

/-- The bytes to write go behind no gap into one cluster the file has. -/
structure WritesWell (fsbi : SbInfo) (f : SharedFile) (c : Content) (filp : OpenFile)
    (buf count : Nat) : Prop where
  started : f.first ≠ 0
  no_gap : 0 < count → filp.position.toNat ≤ c.size
  cluster : 0 < count → filp.position.toNat / fsbi.bytesPerCluster < f.length
  piece : filp.position.toNat % fsbi.bytesPerCluster + count ≤ fsbi.bytesPerCluster
  word : filp.position.toNat + count < 2 ^ 32
  caller : Caller buf count

def Allowed (v : Volume) (f : SharedFile) (s : Shared) (e : Event) : Prop :=
  match e.call with
  | .read fd buf count => ∀ filp, Behind s.session.files fd count filp →
      ReadsWell f s.content filp buf count.toNat
  | .write fd buf count => ∀ filp, Behind s.session.files fd count filp →
      WritesWell v.fsbi f s.content filp buf count.toNat
  | _ => True

/- A descriptor of the file. -/
structure Descriptor (v : Volume) (f : SharedFile) (filp : OpenFile) : Prop where
  inode : InodeOf filp.inode f.location f.idx f.first
  plain : filp.device = false
  room : filp.inode.fileSize ≤ f.length * v.fsbi.bytesPerCluster
  word : filp.inode.fileSize < 2 ^ 32
  low : 0 ≤ filp.position
  high : filp.position ≤ filp.inode.fileSize

/-- Every descriptor knows where the file is, and the clusters hold what the calls made of it.
    The sizes in the inodes and in the entry may be old ones. -/
structure Agree (v : Volume) (f : SharedFile) (start : Session) (s : Shared) : Prop where
  begun : OnDisk v.fsbi (volume start.disk) f.own f.location f.idx f.first f.length
  file : OnDisk v.fsbi (volume s.session.disk) f.own f.location f.idx f.first f.length
  only : FileOnly v.fsbi (volume start.disk) (volume s.session.disk) f.own f.location f.idx
  recorded_room : (recorded v.fsbi (volume s.session.disk) f.location f.idx).inode.fileSize ≤
    f.length * v.fsbi.bytesPerCluster
  room : s.content.size ≤ f.length * v.fsbi.bytesPerCluster
  bytes : ∀ o < s.content.size,
    chainByte v.fsbi (volume s.session.disk) f.first o = s.content.bytes o
  descriptors : ∀ fd filp, s.session.files fd = some filp → Descriptor v f filp

theorem files_updated {files : Files} {ok : OpenFile → Prop} {place : Nat} {entry : Option OpenFile}
    (old : ∀ fd filp, files fd = some filp → ok filp) (new : ∀ filp, entry = some filp → ok filp) :
    ∀ fd filp, Function.update files place entry fd = some filp → ok filp := by
  intro fd filp opened
  by_cases here : fd = place
  · rw [here, Function.update_self] at opened
    exact new filp opened
  · rw [Function.update_of_ne here] at opened
    exact old fd filp opened

theorem Agree.files {v : Volume} {f : SharedFile} {start : Session} {s : Shared}
    (agree : Agree v f start s) {files : Files}
    (descriptors : ∀ fd filp, files fd = some filp → Descriptor v f filp) :
    Agree v f start ⟨⟨s.session.disk, files⟩, s.content⟩ :=
  ⟨agree.begun, agree.file, agree.only, agree.recorded_room, agree.room, agree.bytes, descriptors⟩

theorem position_countable {fsbi : SbInfo} (layout : Layout fsbi) {position : Nat}
    (word : position < 2 ^ 32) : Countable fsbi position := by
  have bytes := layout.bytes
  have some_sectors := layout.some_sectors
  have scaled : 2 ^ 31 * 2 ≤ 2 ^ 31 * fsbi.bytesPerCluster := Nat.mul_le_mul_left _ (by omega)
  exact (Nat.div_lt_iff_lt_mul layout.mounted.some_bytes).mpr (by omega)

section steps
variable {v : Volume} {f : SharedFile} {start : Session} {s t : Shared} {e : Event}

theorem next_quiet {ret : Int} {files : Files} (next : s.next v e = some t)
    (answer : syscall v s.session.files e.call = pure (ret, files)) :
    t = ⟨⟨s.session.disk, files⟩, s.content.after s.session.files e ret⟩ := by
  simp only [Shared.next, Session.answer, answer, pure, run, Option.map_some,
    Option.some.injEq] at next
  exact next.symm

theorem next_eq {ret : Int} {files : Files} {w : World} (next : s.next v e = some t)
    (answer : s.session.answer v e = some ((ret, files), w)) :
    t = ⟨⟨w.disk, files⟩, s.content.after s.session.files e ret⟩ := by
  simp only [Shared.next, answer, Option.map_some, Option.some.injEq] at next
  exact next.symm

theorem close_step (agree : Agree v f start s) (next : s.next v e = some t) {fd : Int}
    (call : e.call = .close fd) : Agree v f start t := by
  have same : ∀ ret, s.content.after s.session.files e ret = s.content := by
    intro ret
    simp only [Content.after, call]
  by_cases bad : BadDescriptor fd
  · have answer : syscall v s.session.files e.call = pure (-EBADF, s.session.files) := by
      simp only [call, syscall, sysClose, if_pos bad]
    rw [next_quiet next answer, same]
    exact agree.files agree.descriptors
  · cases opened : s.session.files fd.toNat with
    | none =>
      have fault : syscall v s.session.files e.call = .fault := by
        simp only [call, syscall, sysClose, if_neg bad, opened]
      simp only [Shared.next, Session.answer, fault, run, Option.map_none] at next
      cases next
    | some filp =>
      have answer : syscall v s.session.files e.call =
          pure (0, Function.update s.session.files fd.toNat none) := by
        simp only [call, syscall, sysClose, if_neg bad, opened]
      rw [next_quiet next answer, same]
      exact agree.files (files_updated agree.descriptors fun filp none_ => by cases none_)

theorem lseek_inside {inode : IndexNode} {position offset : Int} {origin : Nat}
    (low : 0 ≤ position) (high : position ≤ inode.fileSize) (size : inode.fileSize < 2 ^ 63)
    (long : offset < 2 ^ 63) :
    0 ≤ (FAT32Lseek inode position offset origin).2 ∧
      (FAT32Lseek inode position offset origin).2 ≤ inode.fileSize := by
  have checked : ∀ pos : Int, pos < 2 ^ 64 →
      0 ≤ (if pos < 0 ∨ (pos % 2 ^ 64).toNat > inode.fileSize then (-EOVERFLOW, position)
        else (pos, pos)).2 ∧
      (if pos < 0 ∨ (pos % 2 ^ 64).toNat > inode.fileSize then (-EOVERFLOW, position)
        else (pos, pos)).2 ≤ inode.fileSize := by
    intro pos small
    split
    · exact ⟨low, high⟩
    · dsimp only
      omega
  unfold FAT32Lseek
  split
  · exact checked _ (by omega)
  · exact checked _ (by omega)
  · exact checked _ (by omega)

theorem lseek_step (agree : Agree v f start s) (next : s.next v e = some t) {fd offset whence : Int}
    (call : e.call = .lseek fd offset whence) (long : offset < 2 ^ 63) : Agree v f start t := by
  have same : ∀ ret, s.content.after s.session.files e ret = s.content := by
    intro ret
    simp only [Content.after, call]
  by_cases bad : BadDescriptor fd
  · have answer : syscall v s.session.files e.call = pure (-EBADF, s.session.files) := by
      simp only [call, syscall, sysLseek, if_pos bad]
    rw [next_quiet next answer, same]
    exact agree.files agree.descriptors
  by_cases origin : whence < 0 ∨ seekMax ≤ whence
  · have answer : syscall v s.session.files e.call = pure (-OpenFiles.EINVAL, s.session.files) := by
      simp only [call, syscall, sysLseek, if_neg bad, if_pos origin]
    rw [next_quiet next answer, same]
    exact agree.files agree.descriptors
  cases opened : s.session.files fd.toNat with
  | none =>
    have fault : syscall v s.session.files e.call = .fault := by
      simp only [call, syscall, sysLseek, if_neg bad, if_neg origin, opened]
    simp only [Shared.next, Session.answer, fault, run, Option.map_none] at next
    cases next
  | some filp =>
    have old := agree.descriptors _ filp opened
    have answer : syscall v s.session.files e.call =
        pure ((FAT32Lseek filp.inode filp.position offset whence.toNat).1,
          Function.update s.session.files fd.toNat (some { filp with
            position := (FAT32Lseek filp.inode filp.position offset whence.toNat).2 })) := by
      simp only [call, syscall, sysLseek, if_neg bad, if_neg origin, opened, old.plain,
        Bool.false_eq_true, ↓reduceIte]
    rw [next_quiet next answer, same]
    refine agree.files (files_updated agree.descriptors fun new moved => ?_)
    have word := old.word
    obtain ⟨low, high⟩ := @lseek_inside filp.inode filp.position offset whence.toNat old.low
      old.high (by omega) long
    cases moved
    exact ⟨old.inode, old.plain, old.room, old.word, low, high⟩

theorem read_answer (layout : Layout v.fsbi) (agree : Agree v f start s) {fd count : Int}
    {buf : Nat} {filp : OpenFile} (call : e.call = .read fd buf count) (long : count < 2 ^ 63)
    (behind : Behind s.session.files fd count filp)
    (well : ReadsWell f s.content filp buf count.toNat) :
    ∃ w, s.session.answer v e =
        some ((((s.content.due filp.position.toNat count.toNat : Nat) : Int),
          Function.update s.session.files fd.toNat (some { filp with position :=
            ((filp.position.toNat + s.content.due filp.position.toNat count.toNat : Nat) : Int) })), w) ∧
      w.disk = s.session.disk ∧ ∀ k < s.content.due filp.position.toNat count.toNat,
        w.memory (buf + k) = s.content.bytes (filp.position.toNat + k) := by
  have old := agree.descriptors _ filp behind.opened
  have low := old.low
  have high := old.high
  have word := old.word
  have room := old.room
  have started : filp.inode.firstCluster ≠ 0 := by
    rw [old.inode.started]
    exact well.started
  have chain := agree.file.chain well.started
  have links := fun i => @clusterAt_disk v.fsbi (volume s.session.disk) (s.session.world e) rfl f.first i
  have current := well.current
  have int := well.int
  obtain ⟨p, at_⟩ : ∃ p : Nat, filp.position = p := ⟨filp.position.toNat, by omega⟩
  have at_nat : filp.position.toNat = p := by omega
  rw [at_nat] at current int ⊢
  obtain ⟨w, ran, delivered⟩ := @run_FAT32Read v.fsbi layout (s.session.world e) _ buf _ _ _
    current.symm started (by omega) (by omega) (by omega) (position_countable layout (by omega)) int
    (by have caller := well.caller; rw [at_nat] at caller; exact Or.inl caller) (by
      intro i _ reach
      have less : i < f.length := by
        apply Nat.lt_of_mul_lt_mul_right (a := v.fsbi.bytesPerCluster)
        omega
      have valid := (chain.valid i less).data
      rw [old.inode.started, links]
      omega)
  refine ⟨w, ?_, delivered.disk, fun k within => ?_⟩
  · simp only [Session.answer, call, syscall, sysRead, if_neg behind.good, if_neg behind.counted,
      behind.opened, old.plain, Bool.false_eq_true, ↓reduceIte, run_bind, at_, ran, Option.bind_some]
    rfl
  · rw [delivered.inside k within, old.inode.started,
      @chainByte_disk v.fsbi (volume s.session.disk) (s.session.world e) rfl]
    exact agree.bytes _ (by unfold Content.due at within; omega)

theorem read_step (layout : Layout v.fsbi) (agree : Agree v f start s) (next : s.next v e = some t)
    {fd count : Int} {buf : Nat} (call : e.call = .read fd buf count) (long : count < 2 ^ 63)
    (allowed : ∀ filp, Behind s.session.files fd count filp →
      ReadsWell f s.content filp buf count.toNat) : Agree v f start t := by
  have same : ∀ ret, s.content.after s.session.files e ret = s.content := by
    intro ret
    simp only [Content.after, call]
  by_cases bad : BadDescriptor fd
  · have answer : syscall v s.session.files e.call = pure (-EBADF, s.session.files) := by
      simp only [call, syscall, sysRead, if_pos bad]
    rw [next_quiet next answer, same]
    exact agree.files agree.descriptors
  by_cases negative : count < 0
  · have answer : syscall v s.session.files e.call = pure (-OpenFiles.EINVAL, s.session.files) := by
      simp only [call, syscall, sysRead, if_neg bad, if_pos negative]
    rw [next_quiet next answer, same]
    exact agree.files agree.descriptors
  cases opened : s.session.files fd.toNat with
  | none =>
    have answer : syscall v s.session.files e.call = pure (-1, s.session.files) := by
      simp only [call, syscall, sysRead, if_neg bad, if_neg negative, opened]
    rw [next_quiet next answer, same]
    exact agree.files agree.descriptors
  | some filp =>
    have behind : Behind s.session.files fd count filp := ⟨bad, negative, opened⟩
    have well := allowed filp behind
    have old := agree.descriptors _ filp opened
    obtain ⟨w, answer, disk, _⟩ := read_answer layout agree call long behind well
    rw [next_eq next answer, same, disk]
    refine agree.files (files_updated agree.descriptors fun new moved => ?_)
    have current := well.current
    have low := old.low
    have high := old.high
    cases moved
    refine ⟨old.inode, old.plain, old.room, old.word, Int.natCast_nonneg _, ?_⟩
    dsimp only
    omega

theorem write_answer (layout : Layout v.fsbi) (agree : Agree v f start s) {fd count : Int}
    {buf : Nat} {filp : OpenFile} (call : e.call = .write fd buf count)
    (behind : Behind s.session.files fd count filp)
    (well : WritesWell v.fsbi f s.content filp buf count.toNat) :
    ∃ w, s.session.answer v e = some (((count.toNat : Int), Function.update s.session.files fd.toNat
        (some { filp with
          inode := grown filp.inode filp.position.toNat count.toNat
          position := ((filp.position.toNat + count.toNat : Nat) : Int) })), w) ∧
      Replaced v.fsbi (volume s.session.disk) (volume w.disk) f.own f.location f.idx f.first f.length filp.inode
        e.memory filp.position.toNat buf count.toNat := by
  have old := agree.descriptors _ filp behind.opened
  have some_bytes := layout.mounted.some_bytes
  have low := old.low
  have high := old.high
  have word := well.word
  have room := old.room
  have started := well.started
  have chain := agree.file.chain started
  have links := fun i => @clusterAt_disk v.fsbi (volume s.session.disk) (s.session.world e) rfl f.first i
  obtain ⟨p, at_⟩ : ∃ p : Nat, filp.position = p := ⟨filp.position.toNat, by omega⟩
  have at_nat : filp.position.toNat = p := by omega
  have piece := well.piece
  have cluster := well.cluster
  rw [at_nat] at piece cluster word ⊢
  have inside : p / v.fsbi.bytesPerCluster ≤ f.length := by
    apply Nat.le_of_mul_le_mul_right _ some_bytes
    have below := Nat.div_mul_le_self p v.fsbi.bytesPerCluster
    omega
  have linked : clusterAt v.fsbi (s.session.world e) filp.inode.firstCluster
      (p / v.fsbi.bytesPerCluster) ≠ 0 := by
    rw [old.inode.started, links]
    rcases Nat.lt_or_eq_of_le inside with less | last
    · have valid := (chain.valid _ less).data
      omega
    · have mark := chain.ends
      rw [last]
      omega
  obtain ⟨w, ran, wrote⟩ := @run_FAT32Write_piece v.fsbi layout (s.session.world e) _ buf _ _ _
    (by rw [old.inode.started]; exact started) rfl linked (position_countable layout (by omega))
    (by omega) piece (Or.inl well.caller)
  refine ⟨w, ?_, ?_⟩
  · simp only [Session.answer, call, syscall, sysWrite, if_neg behind.good, if_neg behind.counted,
      behind.opened, old.plain, Bool.false_eq_true, ↓reduceIte, run_bind, at_, ran, Option.bind_some]
    rfl
  · have disk := wrote.disk
    rw [old.inode.started, links] at disk
    by_cases nothing : count.toNat = 0
    · rw [nothing] at disk ⊢
      rw [copy_zero, written, if_neg (by omega)] at disk
      exact agree.file.untouched layout (by omega) disk
    · exact agree.file.replaced layout old.inode started e.memory (cluster (by omega)) piece word disk

theorem WritesWell.end_inside {c : Content} {filp : OpenFile} {buf count : Nat}
    (well : WritesWell v.fsbi f c filp buf count) (some_count : 0 < count) :
    filp.position.toNat + count ≤ f.length * v.fsbi.bytesPerCluster := by
  have split := Nat.div_add_mod' filp.position.toNat v.fsbi.bytesPerCluster
  have piece := well.piece
  have next : (filp.position.toNat / v.fsbi.bytesPerCluster + 1) * v.fsbi.bytesPerCluster ≤
      f.length * v.fsbi.bytesPerCluster := Nat.mul_le_mul_right _ (well.cluster some_count)
  rw [Nat.add_mul, Nat.one_mul] at next
  omega

theorem Agree.written (agree : Agree v f start s) {filp : OpenFile}
    {fd buf count : Nat} {disk : Memory} (opened : s.session.files fd = some filp)
    (well : WritesWell v.fsbi f s.content filp buf count)
    (replaced : Replaced v.fsbi (volume s.session.disk) (volume disk) f.own f.location f.idx f.first
      f.length filp.inode e.memory filp.position.toNat buf count) :
    Agree v f start ⟨⟨disk, Function.update s.session.files fd (some { filp with
        inode := grown filp.inode filp.position.toNat count
        position := ((filp.position.toNat + count : Nat) : Int) })⟩,
      if 0 < (count : Int) then s.content.overwritten e.memory filp.position.toNat buf count
      else s.content⟩ := by
  have old := agree.descriptors _ filp opened
  have some_inside := well.end_inside
  have low := old.low
  have high := old.high
  have word := well.word
  have old_room := old.room
  refine ⟨agree.begun, replaced.file, agree.only.trans replaced.only, ?_, ?_, ?_,
    files_updated agree.descriptors fun new moved => ?_⟩
  · have recorded_room := agree.recorded_room
    dsimp only
    rw [replaced.size, entrySize]
    split
    · exact some_inside (by omega)
    · exact recorded_room
  · have room := agree.room
    dsimp only
    split
    · exact Nat.max_le.mpr ⟨room, some_inside (by omega)⟩
    · exact room
  · intro o within
    have room := agree.room
    dsimp only at within ⊢
    split at within
    · rename_i positive
      have no_gap := well.no_gap (by omega)
      have inside := some_inside (by omega)
      rw [if_pos positive]
      simp only [Content.overwritten] at within ⊢
      rw [replaced.bytes o (by omega), copy, copy]
      split
      · rfl
      · exact agree.bytes o (by omega)
    · rename_i nothing
      have zero : count = 0 := by omega
      rw [if_neg nothing, replaced.bytes o (by omega), zero, copy_zero]
      exact agree.bytes o within
  · cases moved
    have size : (grown filp.inode filp.position.toNat count).fileSize =
        max filp.inode.fileSize (filp.position.toNat + count) := by
      unfold grown
      split
      · dsimp only
        omega
      · omega
    refine ⟨grown_inode old.inode _ _, old.plain, ?_, ?_, Int.natCast_nonneg _, ?_⟩
    · dsimp only
      rw [size]
      by_cases positive : 0 < count
      · exact Nat.max_le.mpr ⟨old_room, some_inside positive⟩
      · omega
    · have old_word := old.word
      dsimp only
      omega
    · dsimp only
      omega

theorem write_step (layout : Layout v.fsbi) (agree : Agree v f start s) (next : s.next v e = some t)
    {fd count : Int} {buf : Nat} (call : e.call = .write fd buf count)
    (allowed : ∀ filp, Behind s.session.files fd count filp →
      WritesWell v.fsbi f s.content filp buf count.toNat) : Agree v f start t := by
  have refused : ∀ ret, ret < 0 → s.content.after s.session.files e ret = s.content := by
    intro ret negative
    simp only [Content.after, call]
    split
    · exact if_neg (by omega)
    · rfl
  by_cases bad : BadDescriptor fd
  · have answer : syscall v s.session.files e.call = pure (-EBADF, s.session.files) := by
      simp only [call, syscall, sysWrite, if_pos bad]
    rw [next_quiet next answer, refused _ (by decide)]
    exact agree.files agree.descriptors
  by_cases negative : count < 0
  · have answer : syscall v s.session.files e.call = pure (-OpenFiles.EINVAL, s.session.files) := by
      simp only [call, syscall, sysWrite, if_neg bad, if_pos negative]
    rw [next_quiet next answer, refused _ (by decide)]
    exact agree.files agree.descriptors
  cases opened : s.session.files fd.toNat with
  | none =>
    have fault : syscall v s.session.files e.call = .fault := by
      simp only [call, syscall, sysWrite, if_neg bad, if_neg negative, opened]
    simp only [Shared.next, Session.answer, fault, run, Option.map_none] at next
    cases next
  | some filp =>
    have behind : Behind s.session.files fd count filp := ⟨bad, negative, opened⟩
    have well := allowed filp behind
    obtain ⟨w, answer, replaced⟩ := write_answer layout agree call behind well
    rw [next_eq next answer]
    simp only [Content.after, call, opened, Int.toNat_natCast]
    exact agree.written opened well replaced

theorem opened_descriptor (layout : Layout v.fsbi) (agree : Agree v f start s) (flags : Nat) :
    Descriptor v f
      (openFile (recorded v.fsbi (volume s.session.disk) f.location f.idx) flags) := by
  have regular := agree.file.regular
  have room := agree.recorded_room
  have size := recorded_size layout (volume s.session.disk) regular.cluster.data
    (valid_small regular.cluster) regular.room
  have word := getLittle_lt (volume s.session.disk).disk
    (512 * clusterSector v.fsbi f.location + (32 * f.idx + 28)) 4
  have inode : InodeOf (recorded v.fsbi (volume s.session.disk) f.location f.idx).inode f.location
      f.idx f.first := by
    refine ⟨regular.started, rfl, ?_⟩
    simp only [recorded, foundAt]
    omega
  have plain : decide ((recorded v.fsbi (volume s.session.disk) f.location f.idx).attributes &&&
      attrDevice ≠ 0) = false := by
    rw [regular.attributes]
    rfl
  generalize recorded v.fsbi (volume s.session.disk) f.location f.idx = dentry at *
  unfold openFile
  by_cases trunc : flags &&& oTrunc ≠ 0
  · simp only [if_pos trunc]
    refine ⟨⟨inode.started, inode.cluster, inode.place⟩, plain, Nat.zero_le _, ?_, ?_, ?_⟩
    · dsimp only
      omega
    · dsimp only
      split
      · exact Int.natCast_nonneg _
      · exact Int.le_refl _
    · dsimp only
      split
      · exact Int.le_refl _
      · exact Int.le_refl _
  · simp only [if_neg trunc]
    refine ⟨inode, plain, room, ?_, ?_, ?_⟩
    · dsimp only
      omega
    · dsimp only
      split
      · exact Int.natCast_nonneg _
      · exact Int.le_refl _
    · dsimp only
      split
      · exact Int.le_refl _
      · exact Int.natCast_nonneg _

theorem open_step (layout : Layout v.fsbi) (agree : Agree v f start s) (next : s.next v e = some t)
    {path : List Component} {flags : Nat} (call : e.call = .opening path flags)
    (leads : Leads v f.own f.location f.idx (start.world e) v.rootCluster path) :
    Agree v f start t := by
  have refused : ∀ ret, ret < 0 → s.content.after s.session.files e ret = s.content := by
    intro ret negative
    simp only [Content.after, call]
    exact if_neg (by omega)
  have regular := agree.file.regular
  have begun := agree.begun.regular
  -- the walk still ends at the entry
  have leads_now : Leads v f.own f.location f.idx (s.session.world e) v.root.inode.firstCluster
      path :=
    @Leads.frame v layout _ _ _ _ (start.world e) (s.session.world e)
      ⟨begun.cluster, begun.room, begun.short_entry, begun.attributes, begun.started⟩
      ⟨agree.only.tables, agree.only.clusters⟩ _ _ rfl leads
  obtain ⟨fresh, walked⟩ := pathWalk_run layout regular.room leads_now
  have entry : recorded v.fsbi (s.session.world e) f.location f.idx =
      recorded v.fsbi (volume s.session.disk) f.location f.idx := recorded_disk rfl _ _
  rw [entry] at walked
  have descriptor := opened_descriptor layout agree flags
  have answer : s.session.answer v e = some (openEntry s.session.files
      (recorded v.fsbi (volume s.session.disk) f.location f.idx) flags,
      { s.session.world e with fresh := fresh }) := by
    simp only [Session.answer, call, syscall, sysOpen, run_bind, walked, Option.bind_some]
    rfl
  have descriptor := opened_descriptor layout agree flags
  rcases openEntry_cases s.session.files
    (recorded v.fsbi (volume s.session.disk) f.location f.idx) flags with failed | opened
  · obtain ⟨error, negative, failed⟩ := failed
    rw [failed] at answer
    rw [next_eq next answer, refused error negative]
    exact agree.files agree.descriptors
  · obtain ⟨fd, opened⟩ := opened
    rw [opened] at answer
    rw [next_eq next answer]
    have more := agree.files (@files_updated _ _ fd (some (openFile
      (recorded v.fsbi (volume s.session.disk) f.location f.idx) flags)) agree.descriptors
      fun new made => by cases made; exact descriptor)
    simp only [Content.after, call]
    split
    · exact ⟨more.begun, more.file, more.only, more.recorded_room, Nat.zero_le _,
        fun o within => absurd within (Nat.not_lt_zero o), more.descriptors⟩
    · exact more

end steps

/-- One call: what agreed before does so after it, and a read sees the file. -/
theorem step_agree {v : Volume} (layout : Layout v.fsbi) {f : SharedFile} {start : Session}
    {s t : Shared} {e : Event} (agree : Agree v f start s)
    (step : Guarded (Allowed v f) (Step v f start) s e t) : Agree v f start t ∧ Sees v s e := by
  obtain ⟨⟨next, on_path, long⟩, allowed⟩ := step
  cases call : e.call with
  | opening path flags =>
    refine ⟨open_step layout agree next call (on_path path flags call).2, ?_⟩
    intro fd buf count filp read
    rw [call] at read
    cases read
  | close fd =>
    refine ⟨close_step agree next call, ?_⟩
    intro fd buf count filp read
    rw [call] at read
    cases read
  | read fd buf count =>
    simp only [Allowed, call] at allowed
    simp only [Long, call] at long
    refine ⟨read_step layout agree next call long allowed, ?_⟩
    intro fd' buf' count' filp read behind
    rw [call] at read
    cases read
    obtain ⟨w, answer, _, bytes⟩ := read_answer layout agree call long behind (allowed filp behind)
    exact ⟨_, w, answer, bytes⟩
  | write fd buf count =>
    simp only [Allowed, call] at allowed
    refine ⟨write_step layout agree next call allowed, ?_⟩
    intro fd buf count filp read
    rw [call] at read
    cases read
  | lseek fd offset whence =>
    simp only [Long, call] at long
    refine ⟨lseek_step agree next call long, ?_⟩
    intro fd buf count filp read
    rw [call] at read
    cases read

/-- A file nobody has open, with what its clusters hold. -/
structure Start (v : Volume) (f : SharedFile) (s : Shared) : Prop where
  file : OnDisk v.fsbi (volume s.session.disk) f.own f.location f.idx f.first f.length
  size : (recorded v.fsbi (volume s.session.disk) f.location f.idx).inode.fileSize = s.content.size
  room : s.content.size ≤ f.length * v.fsbi.bytesPerCluster
  bytes : ∀ o < s.content.size,
    chainByte v.fsbi (volume s.session.disk) f.first o = s.content.bytes o
  closed : ∀ fd, s.session.files fd = none

theorem Start.agree {v : Volume} {f : SharedFile} {s : Shared} (start : Start v f s) :
    Agree v f s.session s where
  begun := start.file
  file := start.file
  only := FileOnly.of_disk v.fsbi f.own f.location f.idx rfl
  recorded_room := start.size ▸ start.room
  room := start.room
  bytes := start.bytes
  descriptors fd filp opened := by
    rw [start.closed fd] at opened
    cases opened

/-- Calls on descriptors of one file, one after the other: where every read finds the size it
    needs in its inode and every write stays in a cluster the file has, every read has the bytes
    and the size that all the calls before it left. -/
theorem descriptors_agree {v : Volume} (layout : Layout v.fsbi) {f : SharedFile} {s t : Shared}
    {es : List Event} (start : Start v f s)
    (ran : Steps (Guarded (Allowed v f) (Step v f s.session)) s es t) :
    Steps (Meeting (fun s e _ => Sees v s e) (Step v f s.session)) s es t :=
  steps_mono (fun _ _ _ step => ⟨step.1.1, step.2⟩)
    (steps_meeting (fun _ _ _ agree step => step_agree layout agree step) ran start.agree)

def readmeDisk : Memory := fun i =>
  if 2560 ≤ i then 0x41
  else if 2048 ≤ i then
    (0xe5 :: List.replicate 31 0 ++ readmeEntry ++ List.replicate 14 0 ++
      [3, 0, 1, 0, 0, 0]).getD (i - 2048) 0
  else if 1032 ≤ i ∧ i < 1040 then 0xff else 0

def readmeVolume : Volume := ⟨oneSectorVolume, 2, 1, fun _ _ _ => .fault, fun _ _ _ => .fault⟩

def readmeFile : SharedFile := ⟨[readmeTxt], fun c => c = 3, 2, 1, 3, 1⟩

def readmeStart : Shared := ⟨⟨readmeDisk, fun _ => none⟩, 1, fun _ => 0x41⟩

theorem readme_valid {c : Nat} (data : 2 ≤ c) (small : c < 128) : Valid oneSectorVolume c :=
  ⟨data, small, by omega⟩

theorem readme_start : Start readmeVolume readmeFile readmeStart where
  file := by
    refine ⟨⟨readme_valid (by decide) (by decide), by decide, by decide +kernel, by decide +kernel,
      by decide +kernel⟩, fun own => absurd own (by decide : ¬ 2 = 3), fun c => ?_,
      fun _ => ⟨fun i less => ?_, by decide +kernel⟩, fun none_ => absurd none_ (by decide)⟩
    · constructor
      · intro own
        exact ⟨0, by decide, own.symm⟩
      · intro place
        obtain ⟨i, less, at_⟩ := place
        have first : i = 0 := Nat.lt_one_iff.mp less
        rw [first] at at_
        exact at_.symm
    · have first : i = 0 := Nat.lt_one_iff.mp less
      rw [first]
      exact readme_valid (by decide) (by decide)
  size := by decide +kernel
  room := by decide
  bytes o within := by
    have first : o = 0 := Nat.lt_one_iff.mp within
    rw [first]
    decide +kernel
  closed _ := rfl

def caller (call : Call) : Event := ⟨call, fun _ => 0x42, []⟩

theorem readme_leads :
    Leads readmeVolume readmeFile.own 2 1 (readmeStart.session.world (caller (.close 0))) 2
      [readmeTxt] := by
  refine ⟨?_, (2, 32), by decide +kernel, Or.inl ⟨rfl, rfl⟩⟩
  intro c member
  have listed : directoryClusters oneSectorVolume
      (readmeStart.session.world (caller (.close 0))) 1 (2 % 2 ^ 32) = [2] := by decide +kernel
  have here : c = 2 := by
    have inside : c ∈ [2] := listed ▸ member
    exact List.mem_singleton.mp inside
  rw [here]
  exact ⟨readme_valid (by decide) (by decide), fun own => absurd own (by decide : ¬ 2 = 3)⟩

def opens (flags : Nat) : List Event :=
  [caller (.opening [readmeTxt] flags), caller (.opening [readmeTxt] 0)]

theorem readme_on_path {flags : Nat} : OnPath readmeVolume readmeFile readmeStart.session
    (caller (.opening [readmeTxt] flags)) := by
  intro path flags same
  cases same
  exact ⟨rfl, readme_leads⟩

theorem opens_run {flags : Nat}
    (runs : (exec (Shared.next readmeVolume) readmeStart (opens flags)).isSome = true) :
    ∃ s, Steps (Guarded (Allowed readmeVolume readmeFile)
        (Step readmeVolume readmeFile readmeStart.session)) readmeStart (opens flags) s ∧
      exec (Shared.next readmeVolume) readmeStart (opens flags) = some s := by
  obtain ⟨s, ran⟩ := Option.isSome_iff_exists.mp runs
  have steps := @steps_of_exec_all _ _ _ (fun e => ∃ flags, e = caller (.opening [readmeTxt] flags))
    _ _ _ ran (by
      intro e member
      simp only [opens, List.mem_cons, List.not_mem_nil, or_false] at member
      rcases member with first | second
      · exact ⟨_, first⟩
      · exact ⟨_, second⟩)
  refine ⟨s, steps_mono (fun s e t step => ?_) steps, ran⟩
  obtain ⟨next, flags, made⟩ := step
  rw [made] at next ⊢
  exact ⟨⟨next, readme_on_path, trivial⟩, trivial⟩

theorem not_opening {call : Call} (other : ∀ path flags, call ≠ .opening path flags) :
    OnPath readmeVolume readmeFile readmeStart.session (caller call) :=
  fun path flags same => absurd same (other path flags)

/- A byte overwritten through the second descriptor, and read through the first one. -/
theorem descriptors_agree_readme : ∃ t, Steps (Meeting (fun s e _ => Sees readmeVolume s e)
    (Step readmeVolume readmeFile readmeStart.session)) readmeStart
      (opens 0 ++ [caller (.write 1 0 1), caller (.read 0 0 1)]) t := by
  obtain ⟨s, first, ran⟩ := @opens_run 0 (by decide +kernel)
  have state : ((exec (Shared.next readmeVolume) readmeStart (opens 0)).bind fun s =>
      (s.session.files 1).bind fun filp => (s.next readmeVolume (caller (.write 1 0 1))).bind
        fun m => (m.session.files 0).bind fun reader =>
          (m.next readmeVolume (caller (.read 0 0 1))).map fun _ =>
            ((filp.inode.fileSize, filp.position, s.content.size),
              reader.inode.fileSize, reader.position, m.content.size)) =
      some ((1, 0, 1), 1, 0, 1) := by decide +kernel
  rw [ran, Option.bind_some] at state
  obtain ⟨filp, opened, state⟩ := Option.bind_eq_some_iff.mp state
  obtain ⟨m, wrote, state⟩ := Option.bind_eq_some_iff.mp state
  obtain ⟨reader, opened', state⟩ := Option.bind_eq_some_iff.mp state
  obtain ⟨t, read, state⟩ := Option.map_eq_some_iff.mp state
  simp only [Prod.mk.injEq] at state
  obtain ⟨⟨size, position, length⟩, size', position', length'⟩ := state
  refine ⟨t, descriptors_agree oneSector_layout readme_start (steps_append first
    (.cons ⟨⟨wrote, not_opening (fun _ _ same => by cases same), (by decide : (1 : Int) < 2 ^ 63)⟩,
      ?_⟩ (.cons ⟨⟨read, not_opening (fun _ _ same => by cases same),
        (by decide : (1 : Int) < 2 ^ 63)⟩, ?_⟩ (.nil t))))⟩
  · intro filp' behind
    have same : filp' = filp := Option.some.inj (behind.opened.symm.trans opened)
    rw [same]
    constructor
    · decide
    · rw [position]
      omega
    · rw [position]
      decide
    · rw [position]
      decide
    · rw [position]
      decide
    · exact (by decide : 0 + 1 ≤ taskSize)
  · intro filp' behind
    have same : filp' = reader := Option.some.inj (behind.opened.symm.trans opened')
    rw [same]
    constructor
    · decide
    · rw [position', size', Content.due, length']
    · rw [position', Content.due, length']
      decide
    · rw [position', Content.due, length']
      exact (by decide : 0 + 1 ≤ taskSize)

def lateWrite : Event := caller (.write 0 0 1)
def lateRead : Event := caller (.read 1 0 2)

/- The byte goes behind the end through the first descriptor; the second one never learns
   of it. -/
theorem descriptors_disagree :
    ¬ ∀ (v : Volume) (f : SharedFile) (s t : Shared) (es : List Event), Layout v.fsbi →
      Start v f s → Steps (Step v f s.session) s es t →
        Steps (Meeting (fun s e _ => Sees v s e) (Step v f s.session)) s es t := by
  intro claim
  obtain ⟨s, first, ran⟩ := @opens_run oAppend (by decide +kernel)
  have state : ((exec (Shared.next readmeVolume) readmeStart (opens oAppend)).bind fun s =>
      (s.next readmeVolume lateWrite).bind fun m => (m.session.files 1).bind fun filp =>
        (m.next readmeVolume lateRead).bind fun _ => (m.session.answer readmeVolume lateRead).map
          fun reply => (filp.position, m.content.size, reply.1.1)) = some (0, 2, 1) := by
    decide +kernel
  rw [ran, Option.bind_some] at state
  obtain ⟨m, wrote, state⟩ := Option.bind_eq_some_iff.mp state
  obtain ⟨filp, opened, state⟩ := Option.bind_eq_some_iff.mp state
  obtain ⟨t, read, state⟩ := Option.bind_eq_some_iff.mp state
  obtain ⟨reply, answer, state⟩ := Option.map_eq_some_iff.mp state
  simp only [Prod.mk.injEq] at state
  obtain ⟨position, size, short⟩ := state
  have meeting := claim _ _ _ _ _ oneSector_layout readme_start
    (steps_append (steps_mono (fun _ _ _ step => step.1) first) (.cons ⟨wrote,
      not_opening (fun _ _ same => by cases same), (by decide : (1 : Int) < 2 ^ 63)⟩
      (.cons ⟨read, not_opening (fun _ _ same => by cases same), (by decide : (2 : Int) < 2 ^ 63)⟩
        (.nil t))))
  obtain ⟨m₂, before, last⟩ := steps_split meeting
  have at_s := exec_of_steps (steps_mono (fun _ _ _ step => step.1.1) before)
  rw [ran] at at_s
  cases at_s
  cases last with
  | cons write last =>
    have at_m := Option.some.inj (wrote.symm.trans write.1.1)
    cases at_m
    cases last with
    | cons step rest =>
      obtain ⟨files, w, full, _⟩ := step.2 1 0 2 filp rfl ⟨by decide, by decide, opened⟩
      rw [answer] at full
      cases full
      simp only [Content.due, size, position] at short
      exact absurd short (by decide)

end Descriptors

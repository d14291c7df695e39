import Q2os.DescriptorTable
import Q2os.NameReturns

/- sys_getdents and the buffer of its caller: fill_dentry is not told how long it is. -/
namespace DirentBuffer
open ByteMemory BlockProgram UserMemory Fat32 NameMatching NameReturns BoundedLoop OpenFiles
  DescriptorTable

/-- The size bytes from addr on are among the count bytes from buf on. Addresses are unsigned
    longs. -/
def InBuffer (buf : Nat) (count : Int) (addr size : Nat) : Prop :=
  ∀ i < size, (((addr + i + (2 ^ 64 - buf)) % 2 ^ 64 : Nat) : Int) < count

/-- The entry FAT32_readdir comes to from a position: it lies in the first cluster with an entry
    in use, of those the links lead to from the cluster of the position. -/
def NextEntry (fsbi : SbInfo) (w : World) (firstCluster : Nat) (position : Int) (cluster : Nat)
    (p : Int) : Prop :=
  ∃ start n, sought (fatEntry fsbi w) (walkLength fsbi position) (firstCluster % 2 ^ 32) =
      some start ∧
    FirstStop (ReaddirStops fsbi w (shown fsbi w)) (nextPlace fsbi w) (start, position) n ∧
    ((nextPlace fsbi w)^[n] (start, position)).1 = cluster ∧
    liveIn fsbi (shown fsbi w) ((nextPlace fsbi w)^[n] (start, position)) = some p

def Refused (buf size : Nat) : Prop := buf < taskSize ∧ ¬ verifyArea buf size

/-- The call is turned down before fill_dentry, or the next entry of the directory and its header
    fit in the buffer or are refused. -/
def Fits (v : Volume) (files : Files) (w : World) (fd : Int) (dirent : Nat) (count : Int) : Prop :=
  BadDescriptor fd ∨ count < 0 ∨ ∀ filp, files fd.toNat = some filp → filp.device = false →
    ∀ cluster p name, NextEntry v.fsbi w filp.inode.firstCluster filp.position cluster p →
      (∃ fuel, readdirName fuel (shown v.fsbi w cluster) p = some name) →
        Refused dirent (UserPointers.sizeofDirent + name.length) ∨
          ((UserPointers.sizeofDirent + name.length : Nat) : Int) ≤ count

theorem inBuffer_from {buf k size : Nat} {count : Int} (word : buf < 2 ^ 64)
    (fits : ((k + size : Nat) : Int) ≤ count) : InBuffer buf count ((buf + k) % 2 ^ 64) size := by
  intro i within
  omega

theorem inBuffer_last {buf k size : Nat} {count : Int} (word : buf < 2 ^ 64) (long : count < 2 ^ 63)
    (inside : InBuffer buf count ((buf + k) % 2 ^ 64) size) (some_bytes : 0 < size)
    (low : k < 2 ^ 63) : ((k + size : Nat) : Int) ≤ count := by
  by_cases whole : k + size ≤ 2 ^ 64
  · have last := inside (size - 1) (by omega)
    omega
  · -- the bytes would go once around the addresses
    have top := inside (2 ^ 64 - 1 - k) (by omega)
    omega

/-- fill_dentry stays in the buffer exactly if what it writes fits, or where it writes nothing. -/
theorem fillDentry_touches {buf : Nat} (word : buf < 2 ^ 64) {count : Int} (long : count < 2 ^ 63)
    (name : List UInt8) (w : World) :
    Touches (InBuffer buf count) (UserPointers.fillDentry buf name) w ↔
      Refused buf (UserPointers.sizeofDirent + name.length) ∨
        ((UserPointers.sizeofDirent + name.length : Nat) : Int) ≤ count := by
  unfold UserPointers.fillDentry Refused
  by_cases refused : buf < taskSize ∧
      ¬ verifyArea buf (UserPointers.sizeofDirent + name.length) = true
  · simp [refused]
  · rw [if_neg refused]
    have header : InBuffer buf count ((buf + 16) % 2 ^ 64) 8 ∧
        InBuffer buf count ((buf + 8) % 2 ^ 64) 8 ∧ InBuffer buf count buf 8 ↔
          (UserPointers.sizeofDirent : Int) ≤ count := by
      have first : (buf + 0) % 2 ^ 64 = buf := Nat.mod_eq_of_lt word
      constructor
      · intro inside
        exact @inBuffer_last buf 16 8 count word long inside.1 (by decide) (by decide)
      · intro fits
        unfold UserPointers.sizeofDirent at fits
        have third := @inBuffer_from buf 0 8 count word (by omega)
        rw [first] at third
        exact ⟨inBuffer_from word (by omega), inBuffer_from word (by omega), third⟩
    by_cases empty : name.length = 0
    · simp only [empty, ne_eq, not_true_eq_false, ↓reduceIte, touches_store_bind,
        touches_pure, and_true]
      exact header.trans (or_iff_right (empty ▸ refused)).symm
    · simp only [empty, ne_eq, not_false_eq_true, ↓reduceIte, touches_store_bind,
        touches_pure, and_true]
      rw [header, or_iff_right refused]
      constructor
      · intro both
        exact inBuffer_last word long both.1 (by omega) (by decide)
      · intro fits
        exact ⟨inBuffer_from word fits, by omega⟩

/-- FAT32_readdir reports the name of the entry it comes to. -/
theorem readdir_reports_iff (fsbi : SbInfo) (w : World) (firstCluster : Nat) (position : Int)
    (some_bytes : fsbi.bytesPerCluster ≠ 0) (name : List UInt8) :
    (∃ rounds position' w', run (FAT32Readdir rounds fsbi firstCluster position) w =
        some ((some name, position'), w')) ↔
      ∃ cluster p, NextEntry fsbi w firstCluster position cluster p ∧
        ∃ fuel, readdirName fuel (shown fsbi w cluster) p = some name := by
  have call := readdir_run fsbi w firstCluster position some_bytes
  constructor
  · intro reported
    obtain ⟨rounds, position', w', ran⟩ := reported
    rw [call rounds] at ran
    obtain ⟨r, found, same⟩ := Option.map_eq_some_iff.mp ran
    cases walk : sought (fatEntry fsbi w) (walkLength fsbi position)
        (firstCluster % 2 ^ 32) with
    | none =>
      rw [walk] at found
      rw [← Option.some.inj found] at same
      cases (Prod.mk.inj (Prod.mk.inj same).1).1
    | some start =>
      rw [walk] at found
      obtain ⟨answer, looped, spelt⟩ := Option.bind_eq_some_iff.mp found
      obtain ⟨n, _, stop, made⟩ := (loop_some_iff _ _ _).mp looped
      rw [← made, readdirAnswer] at spelt
      cases live : liveIn fsbi (shown fsbi w) ((nextPlace fsbi w)^[n] (start, position)) with
      | none =>
        rw [live] at spelt
        rw [← Option.some.inj spelt] at same
        cases (Prod.mk.inj (Prod.mk.inj same).1).1
      | some p =>
        rw [live] at spelt
        obtain ⟨given, spelling, made⟩ := Option.map_eq_some_iff.mp spelt
        rw [← made] at same
        have same_name := Option.some.inj (Prod.mk.inj (Prod.mk.inj same).1).1
        rw [same_name] at spelling
        exact ⟨_, p, ⟨start, n, walk, stop, rfl, live⟩, rounds, spelling⟩
  · intro next
    obtain ⟨cluster, p, ⟨start, n, walk, stop, there, live⟩, fuel, spelling⟩ := next
    have looped : loop (ReaddirStops fsbi w (shown fsbi w)) (nextPlace fsbi w)
        (readdirAnswer fsbi (shown fsbi w)) (max (n + 1) fuel) (start, position) = some _ :=
      (loop_some_iff _ _ _).mpr ⟨n, by omega, stop, rfl⟩
    obtain ⟨last, at_⟩ : ∃ last, (nextPlace fsbi w)^[n] (start, position) = (cluster, last) :=
      ⟨_, Prod.ext there rfl⟩
    rw [at_] at looped live
    refine ⟨max (n + 1) fuel, last + (p - last.tmod fsbi.bytesPerCluster) + 32,
      { w with fresh := w.fresh.tail.tail }, ?_⟩
    rw [call, walk]
    dsimp only
    rw [looped, readdirAnswer, live, Option.bind_some, named]
    dsimp only
    rw [readdirName_more spelling (by omega)]
    rfl

theorem readdir_touches (ok : Nat → Nat → Prop) (fuel : Nat) (fsbi : SbInfo)
    (firstCluster : Nat) (position : Int) (w : World) :
    Touches ok (FAT32Readdir fuel fsbi firstCluster position) w := by
  have always : Always ok Anything (FAT32Readdir fuel fsbi firstCluster position) fun _ => True := by
    unfold FAT32Readdir
    by_cases none_ : fsbi.bytesPerCluster = 0
    · rw [if_pos none_]
      trivial
    · simp only [if_neg none_, always_bind, always_alloc]
      intro before block
      apply UserPointers.seekCluster_always
      intro cluster
      cases cluster with
      | none => trivial
      | some cluster =>
        simp only [always_bind]
        apply UserPointers.readdirFrom_always
        intro r
        obtain ⟨entry, position'⟩ := r
        cases entry with
        | none => trivial
        | some entry =>
          dsimp only
          cases readdirName fuel entry.1 entry.2 with
          | none => trivial
          | some name => trivial
  exact touches_of_always always

/-- sys_getdents writes nothing outside the buffer of its caller exactly if the next entry fits
    or nothing is written of it. -/
theorem getdents_bounded_iff (v : Volume) (some_bytes : v.fsbi.bytesPerCluster ≠ 0) (files : Files)
    (w : World) (fd : Int) (dirent : Nat) (word : dirent < 2 ^ 64) (count : Int)
    (long : count < 2 ^ 63) :
    (∀ rounds, Touches (InBuffer dirent count)
        (sysGetdents { v with rounds := rounds } files fd dirent count) w) ↔
      Fits v files w fd dirent count := by
  unfold Fits sysGetdents
  by_cases bad : fd < 0 ∨ (taskFileMax : Int) < fd
  · have refused : BadDescriptor fd := bad.imp_right Int.le_of_lt
    simp only [if_pos bad, touches_pure, implies_true, refused, true_or]
  · by_cases negative : count < 0
    · simp only [if_neg bad, negative, ↓reduceIte, touches_pure, implies_true, true_or, or_true]
    · by_cases past : fd = taskFileMax
      · have refused : BadDescriptor fd := Or.inr (Int.le_of_eq past.symm)
        simp only [if_neg bad, if_neg negative, if_pos past, touches_fault, implies_true, refused,
          true_or]
      · have opened : ¬ BadDescriptor fd := by
          unfold BadDescriptor
          omega
        simp only [if_neg bad, if_neg past, opened, negative, ↓reduceIte, false_or]
        cases place : files fd.toNat with
        | none => simp
        | some filp =>
          simp only [Option.some.injEq, forall_eq']
          cases device : filp.device with
          | true => simp
          | false =>
            simp only [Bool.false_eq_true, ↓reduceIte, forall_const]
            have reports := readdir_reports_iff v.fsbi w filp.inode.firstCluster filp.position
              some_bytes
            constructor
            · intro inside cluster p name next spelt
              obtain ⟨rounds, position', w', ran⟩ := (reports name).mpr ⟨cluster, p, next, spelt⟩
              have rest := ((touches_bind _ _ _ _).mp (inside rounds)).2 _ _ ran
              exact (fillDentry_touches word long name w').mp ((touches_bind _ _ _ _).mp rest).1
            · intro fits rounds
              refine (touches_bind _ _ _ _).mpr
                ⟨readdir_touches _ _ _ _ _ _, fun answer w' ran => ?_⟩
              obtain ⟨reported, position'⟩ := answer
              cases reported with
              | none => trivial
              | some name =>
                obtain ⟨cluster, p, next, spelt⟩ := (reports name).mp ⟨rounds, position', w', ran⟩
                exact (touches_bind _ _ _ _).mpr ⟨(fillDentry_touches word long name w').mpr
                  (fits cluster p name next spelt), fun _ _ _ => trivial⟩

/- Descriptor 0 is the root directory, with README.TXT in it. -/
def listedVolume : Volume :=
  ⟨oneSectorVolume, 2, 1, ⟨fun _ _ _ => .fault, fun _ _ _ => .fault⟩⟩

def listedFiles : Files := fun fd => if fd = 0 then some ⟨⟨0, 2, 0, 0⟩, false, 0⟩ else none

theorem getdents_bounded_iff_readme :
    (∀ rounds, Touches (InBuffer 0x100000 256)
        (sysGetdents { listedVolume with rounds := rounds } listedFiles 0 0x100000 256)
        (directoryDisk readmeEntry)) ↔
      Fits listedVolume listedFiles (directoryDisk readmeEntry) 0 0x100000 256 :=
  getdents_bounded_iff listedVolume (by decide) listedFiles (directoryDisk readmeEntry) 0 0x100000
    (by decide) 256 (by decide)

/- The 34 bytes of README.TXT do not fit in 32. -/
theorem getdents_past_buffer :
    ¬ ∀ (v : Volume) (files : Files) (w : World) (fd : Int) (dirent : Nat) (count : Int),
      v.fsbi.bytesPerCluster ≠ 0 → dirent < 2 ^ 64 → 0 ≤ count → count < 2 ^ 63 →
        Touches (InBuffer dirent count) (sysGetdents v files fd dirent count) w := by
  intro claim
  have inside := claim listedVolume listedFiles (directoryDisk readmeEntry) 0 0x100000 32
    (by decide) (by decide) (by decide) (by decide)
  have history : (run (sysGetdents listedVolume listedFiles 0 0x100000 32)
      (directoryDisk readmeEntry)).map (fun a => a.2.touched.head?) =
        some (some (0x100018, 10)) := by
    decide +kernel
  obtain ⟨⟨answer, w'⟩, ran, used⟩ := Option.map_eq_some_iff.mp history
  have last := touches_run inside ran (fun r none_ => absurd none_ List.not_mem_nil) _
    (List.mem_of_mem_head? used) 8 (by decide)
  exact absurd last (by decide)

end DirentBuffer

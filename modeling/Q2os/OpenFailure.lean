import Q2os.InputBuffer
import Q2os.KeptBlocks
import Q2os.PathWalk

/- What a failed sys_open leaves behind: in the table of open files, in the keyboard's buffer, on
   the disk, and of the blocks it takes itself. -/
namespace OpenFailure
open ByteMemory BlockProgram UserMemory Fat32 NameMatching OpenFiles InputBuffer PathWalk KeptBlocks

def ENAMETOOLONG : Int := 37
def ENOMEM : Int := 49

def page4KSize : Nat := 4096

def stringAt (m : Memory) : Nat → Nat → CString
  | _, 0 => []
  | addr, n + 1 => if solid : m addr ≠ 0 then ⟨m addr, solid⟩ :: stringAt m (addr + 1) n else []

def strlen (m : Memory) (addr : Nat) : Int := toInt32 (stringAt m addr (2 ^ 32 - 2)).length

def strnlenUser (m : Memory) (src maxlen : Nat) : Nat :=
  let size := (strlen m src % 2 ^ 64).toNat
  if verifyArea src size then min size maxlen else 0

theorem stringAt_stored {m : Memory} {addr n : Nat} {text : CString}
    (stored : ∀ i (inside : i < text.length), m (addr + i) = text[i].1)
    (ended : m (addr + text.length) = 0) (room : text.length ≤ n) : stringAt m addr n = text := by
  induction text generalizing addr n with
  | nil =>
    cases n with
    | zero => rfl
    | succ n =>
      have first : m addr = 0 := ended
      simp [stringAt, first]
  | cons c text ih =>
    cases n with
    | zero => exact absurd room (Nat.not_succ_le_zero _)
    | succ n =>
      have first : m addr = c.1 := stored 0 (Nat.succ_pos _)
      have rest : stringAt m (addr + 1) n = text := by
        apply ih
        · intro i inside
          rw [Nat.add_assoc, Nat.add_comm 1 i]
          exact stored (i + 1) (Nat.succ_lt_succ inside)
        · rw [Nat.add_assoc, Nat.add_comm 1]
          exact ended
        · exact Nat.le_of_succ_le_succ room
      simp [stringAt, first, rest, c.2]

theorem strnlenUser_stored {user : Memory} {filename : Nat} {text : CString}
    (stored : ∀ i (inside : i < text.length), user (filename + i) = text[i].1)
    (ended : user (filename + text.length) = 0) (short : text.length < page4KSize)
    (low : filename + text.length ≤ taskSize) :
    strnlenUser user filename page4KSize = text.length := by
  have small : text.length < 4096 := short
  have length : strlen user filename = text.length := by
    rw [strlen, stringAt_stored stored ended (by omega), toInt32_small (by omega)]
  have size : ((text.length : Int) % 2 ^ 64).toNat = text.length := by omega
  simp only [strnlenUser, length, size, verifyArea_of_le low, ↓reduceIte]
  exact Nat.min_eq_left (Nat.le_of_lt short)

def kmallocOrNull (choose : Finset Nat → Option Nat) : Owning (Option Nat) := fun live =>
  match choose live with
  | none => return (none, live)
  | some block => return (some block, insert block live)

def fOpsOpen (dentry : Found) (kb : KeyboardInputbuffer) : Int × KeyboardInputbuffer :=
  if dentry.attributes &&& attrDevice ≠ 0 then (1, reset kb) else (1, kb)

theorem fOpsOpen_returns (dentry : Found) (kb : KeyboardInputbuffer) :
    (fOpsOpen dentry kb).1 = 1 := by
  unfold fOpsOpen
  split <;> rfl

section code
variable (early late : Finset Nat → Option Nat) (files : Files) (kb : KeyboardInputbuffer)

def openFilp (dentry : Found) (flags : Nat) : Owning (Int × Files × KeyboardInputbuffer) := do
  match ← kmallocOrNull late with
  | none => plain .fault
  | some filp =>
    let (error, kb) := fOpsOpen dentry kb
    if error ≠ 1 then do
      kfree filp
      return (-EFAULT, files, kb)
    else
      match freeDescriptor files with
      | none => do
        kfree filp
        return (-EMFILE, files, kb)
      | some fd =>
        return ((fd : Int), Function.update files fd (some (openFile dentry flags)), kb)

def openDentry (path : Nat) (dentry : Found) (flags : Nat) :
    Owning (Int × Files × KeyboardInputbuffer) :=
  if flags &&& oDirectory ≠ 0 ∧ dentry.attributes ≠ attrDir then return (-ENOTDIR, files, kb)
  else if flags &&& oDirectory = 0 ∧ dentry.attributes = attrDir then return (-EISDIR, files, kb)
  else do
    kfree path
    openFilp late files kb dentry flags

/- The blocks of the entries path_walk makes are not counted. -/
def sysOpen (v : Volume) (user : Memory) (filename flags : Nat) :
    Owning (Int × Files × KeyboardInputbuffer) := do
  match ← kmallocOrNull early with
  | none => return (-ENOMEM, files, kb)
  | some path =>
    let pathlen := strnlenUser user filename page4KSize
    if pathlen = 0 then do
      kfree path
      return (-EFAULT, files, kb)
    else if page4KSize ≤ pathlen then do
      kfree path
      return (-ENAMETOOLONG, files, kb)
    else do
      match ← plain (PathWalk.pathWalk v (stringAt user filename pathlen) 0) with
      | none => return (-ENOENT, files, kb)
      | some dentry => openDentry late files kb path dentry flags

end code

abbrev Nowhere : Nat → Nat → Prop := fun _ _ => False

section reads
variable (v : Volume)

theorem lookupFrom_reads (fsbi : SbInfo) (before block : Memory) (d : Component)
    (fuel cluster : Nat) :
    Always Anything Nowhere (lookupFrom fsbi before block d fuel cluster) fun _ => True := by
  induction fuel generalizing block cluster with
  | zero => trivial
  | succ fuel ih =>
    simp only [lookupFrom, always_bind, always_readSectors]
    intro reply
    cases reply with
    | none => trivial
    | some reply =>
      dsimp only
      split
      · trivial
      · simp only [DISK1FAT32ReadFATEntry, always_bind, always_readSectors, always_pure]
        intro entry
        split
        · exact ih _ _
        · trivial

theorem walk_reads (flags : Nat) (parent : Found) (ns : List Name) :
    Always Anything Nowhere (walk v flags parent ns) fun _ => True := by
  induction ns generalizing parent with
  | nil => trivial
  | cons n rest ih =>
    rw [walk]
    simp only [lookup, FAT32Lookup, always_bind, always_alloc]
    intro name before block
    refine always_mono (lookupFrom_reads v.fsbi before block _ _ _) fun found _ => ?_
    cases found with
    | none => trivial
    | some path =>
      cases rest with
      | nil => trivial
      | cons n' rest => exact ih path

end reads

/-- The entry that the lookups of the components lead to, one after the other and the k-th transfer
    the next, or none where one of them gives none. -/
inductive Reaches (v : Volume) (ok : Nat → Bool) :
    World → Nat → Found → List Name → Option Found → Prop where
  | here {w : World} {k : Nat} {entry : Found} : Reaches v ok w k entry [] (some entry)
  | missing {w w' : World} {k k' : Nat} {parent : Found} {n : Name} {rest : List Name}
      (none_ : runOn ok (lookup v parent n) w k = some (none, w', k')) :
      Reaches v ok w k parent (n :: rest) none
  | through {w w' : World} {k k' : Nat} {parent path : Found} {n : Name} {rest : List Name}
      {r : Option Found} (found : runOn ok (lookup v parent n) w k = some (some path, w', k'))
      (tail : Reaches v ok w' k' path rest r) : Reaches v ok w k parent (n :: rest) r

theorem walk_reaches {v : Volume} {ok : Nat → Bool} {w : World} {k : Nat} {parent : Found}
    {ns : List Name} {a : Option Found} :
    Reaches v ok w k parent ns a ↔
      ∃ w' k', runOn ok (walk v 0 parent ns) w k = some (a, w', k') := by
  induction ns generalizing w k parent with
  | nil =>
    constructor
    · intro reaches
      cases reaches
      exact ⟨w, k, rfl⟩
    · intro walked
      obtain ⟨_, _, ran⟩ := walked
      cases ran
      exact .here
  | cons n rest ih =>
    rw [walk]
    simp only [runOn_bind]
    constructor
    · intro reaches
      cases reaches with
      | missing none_ =>
        rw [none_]
        exact ⟨_, _, rfl⟩
      | through found tail =>
        rw [found]
        cases rest with
        | nil =>
          cases tail
          exact ⟨_, _, rfl⟩
        | cons n' rest => exact ih.mp tail
    · intro walked
      obtain ⟨w', k', ran⟩ := walked
      obtain ⟨⟨looked, w₁, k₁⟩, found, ran⟩ := Option.bind_eq_some_iff.mp ran
      cases looked with
      | none =>
        cases ran
        exact .missing found
      | some path =>
        cases rest with
        | nil =>
          cases ran
          exact .through found .here
        | cons n' rest => exact .through found (ih.mpr ⟨w', k', ran⟩)

/-- Where a run ends with an error, the table and the keyboard's buffer are these and the blocks in
    use too. -/
def Leaves (ok : Nat → Bool) (files : Files) (kb : KeyboardInputbuffer) (live : Finset Nat)
    (p : Prog ((Int × Files × KeyboardInputbuffer) × Finset Nat)) (w : World) (k : Nat) : Prop :=
  ∀ r, runOn ok p w k = some r → r.1.1.1 < 0 → r.1.1.2 = (files, kb) ∧ r.1.2 = live

/- The path is turned down before path_walk. -/
def TurnedDown (user : Memory) (filename : Nat) : Prop :=
  strnlenUser user filename page4KSize = 0 ∨ page4KSize ≤ strnlenUser user filename page4KSize

def Asked (flags : Nat) (dentry : Found) : Prop :=
  flags &&& oDirectory ≠ 0 ↔ dentry.attributes = attrDir

def Room (files : Files) (kb : KeyboardInputbuffer) (dentry : Found) : Prop :=
  (freeDescriptor files).isSome = true ∨ (fOpsOpen dentry kb).2 = kb

section exits
variable {ok : Nat → Bool} {files : Files} {kb : KeyboardInputbuffer} {live : Finset Nat}
  {w : World} {k : Nat}

theorem leaves_fault : Leaves ok files kb live .fault w k := fun _ ran => by cases ran

theorem leaves_error {error : Int} (negative : error < 0) (kb' : KeyboardInputbuffer)
    (blocks : Finset Nat) :
    Leaves ok files kb live (pure ((error, files, kb'), blocks)) w k ↔
      kb' = kb ∧ blocks = live := by
  constructor
  · intro leaves
    obtain ⟨same, back⟩ := leaves _ rfl negative
    exact ⟨congrArg Prod.snd same, back⟩
  · intro same r ran _
    cases ran
    exact ⟨congrArg _ same.1, same.2⟩

theorem leaves_descriptor (fd : Nat) (rest : Files × KeyboardInputbuffer) (blocks : Finset Nat) :
    Leaves ok files kb live (pure (((fd : Int), rest), blocks)) w k := by
  intro r ran negative
  cases ran
  exact absurd negative (by simp)

theorem leaves_bind {α : Type} (p : Prog α)
    (f : α → Prog ((Int × Files × KeyboardInputbuffer) × Finset Nat)) :
    Leaves ok files kb live (p >>= f) w k ↔
      ∀ a w' k', runOn ok p w k = some (a, w', k') → Leaves ok files kb live (f a) w' k' := by
  simp only [Leaves, runOn_bind, Option.bind_eq_some_iff]
  constructor
  · exact fun leaves a w' k' ran r rest => leaves r ⟨(a, w', k'), ran, rest⟩
  · rintro leaves r ⟨⟨a, w', k'⟩, ran, rest⟩
    exact leaves a w' k' ran r rest

theorem kmallocOrNull_before {β : Type} (choose : Finset Nat → Option Nat)
    (f : Option Nat → Owning β) :
    (kmallocOrNull choose >>= f) live =
      match choose live with
      | none => f none live
      | some block => f (some block) (insert block live) := by
  change (kmallocOrNull choose live >>= fun r => f r.1 r.2) = _
  unfold kmallocOrNull
  cases choose live <;> rfl

variable {late : Finset Nat → Option Nat}

/-- With a block for struct file, the result and the table are those of OpenFiles. -/
theorem openDentry_entry {path filp : Nat} (given : late (live.erase path) = some filp)
    (dentry : Found) (flags : Nat) :
    (openDentry late files kb path dentry flags live >>= fun r => pure (r.1.1, r.1.2.1)) =
      (pure (openEntry files dentry flags) : Prog (Int × Files)) := by
  unfold openDentry openEntry
  split
  · rfl
  · split
    · rfl
    · rw [kfree_before, openFilp, kmallocOrNull_before, given]
      simp only [fOpsOpen_returns, ne_eq, not_true_eq_false, ↓reduceIte]
      cases freeDescriptor files <;> rfl

variable (lateFresh : ∀ live block, late live = some block → block ∉ live)
include lateFresh

theorem openFilp_leaves (dentry : Found) (flags : Nat) :
    Leaves ok files kb live (openFilp late files kb dentry flags live) w k ↔
      ((late live).isSome = true → Room files kb dentry) := by
  rw [openFilp, kmallocOrNull_before]
  cases given : late live with
  | none => exact iff_of_true leaves_fault fun some_ => by cases some_
  | some filp =>
    have back := Finset.erase_insert (lateFresh live filp given)
    simp only [fOpsOpen_returns, ne_eq, not_true_eq_false, ↓reduceIte, Option.isSome_some,
      forall_const, Room]
    cases place : freeDescriptor files with
    | none =>
      simp only [kfree_before, back, Option.isSome_none, Bool.false_eq_true, false_or]
      refine (leaves_error (by decide) _ _).trans ?_
      exact and_iff_left rfl
    | some fd => exact iff_of_true (leaves_descriptor _ _ _) (Or.inl rfl)

theorem openDentry_leaves {path : Nat} (taken : path ∉ live) (dentry : Found) (flags : Nat) :
    Leaves ok files kb live (openDentry late files kb path dentry flags (insert path live)) w k ↔
      Asked flags dentry ∧ ((late live).isSome = true → Room files kb dentry) := by
  have kept : ∀ error : Int, error < 0 →
      ¬ Leaves ok files kb live (pure ((error, files, kb), insert path live)) w k := by
    intro error negative leaves
    have same := ((leaves_error negative _ _).mp leaves).2
    exact taken (same ▸ Finset.mem_insert_self path live)
  unfold openDentry Asked
  by_cases directory : dentry.attributes = attrDir
  · by_cases asked : flags &&& oDirectory = 0
    · simp only [directory, asked, ne_eq, not_true_eq_false, ↓reduceIte, and_self, iff_true,
        false_and, iff_false]
      exact kept _ (by decide)
    · simp only [directory, asked, ne_eq, not_true_eq_false, and_false, ↓reduceIte, false_and,
        not_false_eq_true, true_and, kfree_before, Finset.erase_insert taken]
      exact openFilp_leaves lateFresh dentry flags
  · by_cases asked : flags &&& oDirectory = 0
    · simp only [directory, asked, ne_eq, not_true_eq_false, and_false, ↓reduceIte, false_and,
        true_and, kfree_before, Finset.erase_insert taken]
      exact openFilp_leaves lateFresh dentry flags
    · simp only [directory, asked, ne_eq, not_false_eq_true, and_self, ↓reduceIte, iff_false,
        not_true_eq_false, false_and]
      exact kept _ (by decide)

end exits

section condition
variable (early late : Finset Nat → Option Nat) (v : Volume) (ok : Nat → Bool) (files : Files)
  (kb : KeyboardInputbuffer) (user : Memory) (filename flags : Nat) (live : Finset Nat) (w : World)
  (k : Nat)

def pathText : CString := stringAt user filename (strnlenUser user filename page4KSize)

/-- An error leaves the table, the keyboard's buffer, the disk and the blocks in use alone. -/
def Atomic : Prop :=
  ∀ r, runOn ok (sysOpen early late files kb v user filename flags live) w k = some r →
    r.1.1.1 < 0 → r.1.1.2 = (files, kb) ∧ r.1.2 = live ∧ r.2.1.disk = w.disk

/-- There is no block for the path, or it is turned down before the walk, or it leads to an entry of
    the kind asked for which the table has a place for or whose open changes nothing. -/
def Clean : Prop :=
  early live = none ∨ TurnedDown user filename ∨
    ∀ r, Reaches v ok w k v.root (components (pathText user filename)) r →
      ∃ dentry, r = some dentry ∧ Asked flags dentry ∧
        ((late live).isSome = true → Room files kb dentry)

theorem sysOpen_reads :
    Always Anything Nowhere (sysOpen early late files kb v user filename flags live)
      fun _ => True := by
  have opened : ∀ path dentry live,
      Always Anything Nowhere (openDentry late files kb path dentry flags live) fun _ => True := by
    intro path dentry live
    unfold openDentry
    split
    · trivial
    · split
      · trivial
      · rw [kfree_before, openFilp, kmallocOrNull_before]
        cases late (live.erase path) with
        | none => trivial
        | some filp =>
          dsimp only
          split
          · trivial
          · cases freeDescriptor files <;> trivial
  rw [sysOpen, kmallocOrNull_before]
  generalize strnlenUser user filename page4KSize = pathlen
  cases early live with
  | none => trivial
  | some path =>
    by_cases empty : pathlen = 0
    · simp only [empty, ↓reduceIte, kfree_before]
      trivial
    · by_cases long : page4KSize ≤ pathlen
      · simp only [empty, long, ↓reduceIte, kfree_before]
        trivial
      · simp only [empty, long, ↓reduceIte, plain_before, pathWalk_components, always_bind]
        refine always_mono (walk_reads v 0 _ _) fun found _ => ?_
        cases found with
        | none => trivial
        | some dentry => exact opened path dentry _

theorem atomic_leaves (atomic : Atomic early late v ok files kb user filename flags live w k) :
    Leaves ok files kb live (sysOpen early late files kb v user filename flags live) w k := by
  intro r ran error
  obtain ⟨table, blocks, _⟩ := atomic r ran error
  exact ⟨table, blocks⟩

variable {early late}
  (earlyFresh : ∀ live block, early live = some block → block ∉ live)
  (lateFresh : ∀ live block, late live = some block → block ∉ live)
include earlyFresh lateFresh

theorem sysOpen_leaves :
    Leaves ok files kb live (sysOpen early late files kb v user filename flags live) w k ↔
      Clean early late v ok files kb user filename flags live w k := by
  rw [sysOpen, kmallocOrNull_before, Clean, TurnedDown]
  cases given : early live with
  | none => exact iff_of_true ((leaves_error (by decide) _ _).mpr ⟨rfl, rfl⟩) (Or.inl rfl)
  | some path =>
    have taken := earlyFresh live path given
    have back := Finset.erase_insert taken
    by_cases empty : strnlenUser user filename page4KSize = 0
    · simp only [empty, ↓reduceIte, kfree_before, back]
      exact iff_of_true ((leaves_error (by decide) _ _).mpr ⟨rfl, rfl⟩)
        (Or.inr (Or.inl (Or.inl trivial)))
    · by_cases long : page4KSize ≤ strnlenUser user filename page4KSize
      · simp only [empty, long, ↓reduceIte, kfree_before, back]
        exact iff_of_true ((leaves_error (by decide) _ _).mpr ⟨rfl, rfl⟩)
          (Or.inr (Or.inl (Or.inr trivial)))
      · simp only [empty, long, ↓reduceIte, reduceCtorEq, false_or, plain_before,
          pathWalk_components, leaves_bind, walk_reaches, pathText]
        constructor
        · rintro leaves r ⟨w', k', walked⟩
          have rest := leaves r w' k' walked
          cases r with
          | none =>
            have same := ((leaves_error (by decide) _ _).mp rest).2
            exact absurd (same ▸ Finset.mem_insert_self path live) taken
          | some dentry =>
            exact ⟨dentry, rfl, (openDentry_leaves lateFresh taken dentry flags).mp rest⟩
        · intro clean a w' k' walked
          obtain ⟨dentry, found, fits⟩ := clean a ⟨w', k', walked⟩
          rw [found]
          exact (openDentry_leaves lateFresh taken dentry flags).mpr fits

/-- sys_open is atomic on failure in exactly these states: a path that leads nowhere and an entry of
    the other kind keep the path's block, and the full table is met after the keyboard's open. -/
theorem sys_open_atomic_iff :
    Atomic early late v ok files kb user filename flags live w k ↔
      Clean early late v ok files kb user filename flags live w k := by
  rw [← sysOpen_leaves v ok files kb user filename flags live w k earlyFresh lateFresh]
  have same : ∀ r, runOn ok (sysOpen early late files kb v user filename flags live) w k = some r →
      r.2.1.disk = w.disk := fun r ran => funext fun x =>
    runOn_frame (sysOpen_reads early late v files kb user filename flags live) ran
      fun _ _ none_ => none_.elim
  constructor
  · exact atomic_leaves _ _ _ _ _ _ _ _ _ _ _ _
  · intro leaves r ran error
    obtain ⟨table, blocks⟩ := leaves r ran error
    exact ⟨table, blocks, same r ran⟩

end condition

def textMemory (text : CString) : Memory := fun i => (text.map Subtype.val).getD i 0

theorem textMemory_path {text : CString} (solid : text ≠ []) (short : text.length < page4KSize) :
    pathText (textMemory text) 0 = text ∧ ¬ TurnedDown (textMemory text) 0 := by
  have stored : ∀ i (inside : i < text.length), textMemory text (0 + i) = text[i].1 := by
    intro i inside
    simp [textMemory, inside]
  have ended : textMemory text (0 + text.length) = 0 := by simp [textMemory]
  have low : 0 + text.length ≤ taskSize := by
    simp only [page4KSize, taskSize] at short ⊢
    omega
  have length := strnlenUser_stored stored ended short low
  have some_ := List.length_pos_iff.mpr solid
  constructor
  · rw [pathText, length]
    exact stringAt_stored stored ended le_rfl
  · rw [TurnedDown, length]
    omega

def someAbove (live : Finset Nat) : Option Nat := some (above live)

theorem someAbove_fresh (live : Finset Nat) (block : Nat) (given : someAbove live = some block) :
    block ∉ live := by
  cases given
  exact above_fresh live

theorem sys_open_atomic_iff_missing :
    Atomic someAbove someAbove nestedVolume (fun _ => true) (fun _ => none) ⟨0, 0, 0, zeros⟩
        (textMemory readmeName.text) 0 0 ∅ (directoryDisk []) 0 ↔
      Clean someAbove someAbove nestedVolume (fun _ => true) (fun _ => none) ⟨0, 0, 0, zeros⟩
        (textMemory readmeName.text) 0 0 ∅ (directoryDisk []) 0 :=
  sys_open_atomic_iff _ _ _ _ _ _ _ _ _ _ someAbove_fresh someAbove_fresh

/- README.TXT as a device, a full table, and a buffer with a key in it. -/
def deviceEntry : List UInt8 := readmeEntry ++ List.replicate 8 0 ++ [0, 0xf0]
def fullTable : Files := fun _ => some ⟨⟨0, 0, 0, 0⟩, false, 0⟩
def oneKey : KeyboardInputbuffer := ⟨1, 0, 1, fun _ => 30⟩

/- Opening README.TXT where there is none, and where it is a device and the table is full. -/
theorem failed_open_shows :
    ¬ Atomic someAbove someAbove nestedVolume (fun _ => true) (fun _ => none) oneKey
      (textMemory readmeName.text) 0 0 ∅ (directoryDisk []) 0 ∧
    ¬ Atomic someAbove someAbove nestedVolume (fun _ => true) fullTable oneKey
      (textMemory readmeName.text) 0 0 ∅ (directoryDisk deviceEntry) 0 := by
  obtain ⟨path, walked⟩ := @textMemory_path readmeName.text (by decide) (by decide)
  have parts : components readmeName.text = [readmeName] := rfl
  constructor
  · intro atomic
    have clean := (sysOpen_leaves _ _ _ _ _ _ _ _ _ _ someAbove_fresh someAbove_fresh).mp
      (atomic_leaves _ _ _ _ _ _ _ _ _ _ _ _ atomic)
    rcases clean with none_ | turned | leads
    · cases none_
    · exact walked turned
    · rw [path, parts] at leads
      have looked : runOn (fun _ => true) (lookup nestedVolume nestedVolume.root readmeName)
          (directoryDisk []) 0 = some (none, directoryDisk [], 2) := rfl
      obtain ⟨dentry, found, _⟩ := leads none (.missing looked)
      cases found
  · intro atomic
    have clean := (sysOpen_leaves _ _ _ _ _ _ _ _ _ _ someAbove_fresh someAbove_fresh).mp
      (atomic_leaves _ _ _ _ _ _ _ _ _ _ _ _ atomic)
    rcases clean with none_ | turned | leads
    · cases none_
    · exact walked turned
    · rw [path, parts] at leads
      have device : Reaches nestedVolume (fun _ => true) (directoryDisk deviceEntry) 0
          nestedVolume.root [readmeName] (some ⟨⟨0, 0, 2, 0⟩, attrFile ||| attrDevice⟩) :=
        .through rfl .here
      obtain ⟨dentry, found, _, room⟩ := leads _ device
      cases found
      rcases room rfl with place | same
      · revert place
        decide
      · have count := congrArg KeyboardInputbuffer.count same
        revert count
        decide

end OpenFailure

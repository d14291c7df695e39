import Q2os.ChainReads
import Q2os.ExecFailure
import Q2os.StringCopy

/- The arguments and the image of a new program: do_execve on an open file, from the address space
   in which it reads argv to its return. -/
namespace ExecArguments
open ByteMemory BlockProgram Fat32 ChainReads StringCopy UserPointers
open PageAllocator (pageSize)
open AddressSpace (codeStart userEnd)
open PathWalk (CString)
open NameMatching (oneSectorVolume)

def stackStart : Nat := 0xa00000

def dargv : Nat := stackStart - 10 * 8

/- The 2MB page of the code, in which the stack is too. -/
def codePage : Nat := codeStart / pageSize

/- The registers that do_execve gives the new program; it also resets the segments. -/
structure Regs where
  rdi : Nat
  rsi : Nat
  r10 : Nat
  r11 : Nat
  rax : Nat

/- The task that calls do_execve: PF_VFORK, its user memory, what the page given for the code would
   hold, and the disk; the memory of the world is not used. -/
structure Caller where
  vforked : Bool
  space : Space
  fresh : Memory
  world : World

structure Result where
  space : Space
  regs : Regs
  retval : Int

def mapCode (s : Space) (fresh : Memory) : Space :=
  if s.mapped codePage then s
  else
    { memory := fun a => if a / pageSize = codePage then fresh a else s.memory a
      mapped := Function.update s.mapped codePage true
      user := by
        intro page mapped
        by_cases code : page = codePage
        · rw [code]
          decide
        · rw [Function.update_of_ne code] at mapped
          exact s.user page mapped }

def noSpace : Space := ⟨zeros, fun _ => false, fun _ mapped => by cases mapped⟩

/- The space that is loaded when argv is read: that of the caller, or for a vforked one a new one. -/
def enter (c : Caller) : Space := mapCode (if c.vforked then noSpace else c.space) c.fresh

/- The loop over argv from string i on; the result is the memory, i and pos. -/
def copyArgv (argv : Nat) : Nat → Nat → Nat → Space → Option (Space × Nat × Nat)
  | 0, i, pos, s => some (s, i, pos)
  | left + 1, i, pos, s => do
    let entry ← loadWord s (argv + 8 * i)
    if entry = 0 then return (s, i, pos)
    else
      let size ← strnlenUser s entry 1024
      let len := size + 1
      let s ← strcpy userEnd s (pos - len) entry
      let s ← storeWord s (dargv + 8 * i) (pos - len)
      copyArgv argv left (i + 1) (pos - len) s

def arguments (s : Space) (regs : Regs) (argv : Nat) : Option (Space × Nat × Regs) :=
  if argv ≠ 0 then
    (copyArgv argv 10 0 dargv s).map fun r => (r.1, r.2.2 - 10, { regs with rdi := r.2.1, rsi := dargv })
  else some (s, stackStart, regs)

def clear (s : Space) (a n : Nat) : Option Space :=
  if s.Accessible a n then some (s.withMemory (fill s.memory a n 0)) else none

def readImage (fsbi : SbInfo) (inode : IndexNode) (w : World) (s : Space) : Option (Space × Int) := do
  let ((retval, _), w) ← run (FAT32Read fsbi inode codeStart inode.fileSize 0)
    { w with memory := s.memory, touched := [] }
  if ∀ r ∈ w.touched, s.Accessible r.1 r.2 then return (s.withMemory w.memory, retval) else none

def doExecve (fsbi : SbInfo) (inode : IndexNode) (c : Caller) (regs : Regs) (argv : Nat) :
    Option Result := do
  let (s, stack, regs) ← arguments (enter c) regs argv
  let s ← clear s codeStart (stack - codeStart)
  let (s, retval) ← readImage fsbi inode c.world s
  return ⟨s, { regs with r10 := codeStart, r11 := stack, rax := 1 }, retval⟩

/- The string at an address, all of it in mapped pages. -/
def Sees (s : Space) (p : Nat) (text : CString) : Prop :=
  s.Accessible p (text.length + 1) ∧ Holds s.memory p text

/- The entries of argv from entry i on: one for each string, and NULL. -/
def Listed (s : Space) (argv : Nat) : Nat → List CString → Prop
  | i, [] => i < 10 → loadWord s (argv + 8 * i) = some 0
  | i, text :: rest =>
    (∃ p, p ≠ 0 ∧ loadWord s (argv + 8 * i) = some p ∧ Sees s p text) ∧ Listed s argv (i + 1) rest

/-- The strings that a caller gives: ten of them at most, wherever they and the vector are. -/
structure Given (s : Space) (argv : Nat) (texts : List CString) : Prop where
  some_vector : argv ≠ 0
  few : texts.length ≤ 10
  listed : Listed s argv 0 texts

/-- The new program finds its arguments, the NULL behind them and its file, with no argument inside
    the image. -/
structure Intact (r : Result) (texts : List CString) (file : Nat → UInt8) (size : Nat) : Prop where
  argc : r.regs.rdi = texts.length
  args : ∀ i (inside : i < texts.length), ∃ p, loadWord r.space (r.regs.rsi + 8 * i) = some p ∧
    Sees r.space p texts[i] ∧ (p + texts[i].length < codeStart ∨ codeStart + size ≤ p)
  null : loadWord r.space (r.regs.rsi + 8 * texts.length) = some 0
  image : ∀ t < size, r.space.memory (codeStart + t) = file t
  vector : codeStart + size ≤ r.regs.rsi

def place (pos : Nat) (text : CString) : Nat := pos - (text.length + 1)

def bottom : Nat → List CString → Nat
  | pos, [] => pos
  | pos, text :: rest => bottom (place pos text) rest

def putArg (m : Memory) (i d : Nat) (text : CString) : Memory :=
  setLittle (putText m d text) (dargv + 8 * i) d 8

def laid : Memory → Nat → Nat → List CString → Memory
  | m, _, _, [] => m
  | m, i, pos, text :: rest => laid (putArg m i (place pos text) text) (i + 1) (place pos text) rest

/-- Each entry of argv leads to its string at its turn: in memory as the strings before it, laid out
    below pos, have left it. -/
def InPlace (argv : Nat) : Memory → Nat → Nat → List CString → Prop
  | m, i, _, [] => i < 10 → word m (argv + 8 * i) = 0
  | m, i, pos, text :: rest =>
    (word m (argv + 8 * i) ≠ 0 ∧ Holds m (word m (argv + 8 * i)) text) ∧
      InPlace argv (putArg m i (place pos text) text) (i + 1) (place pos text) rest

/- The entry behind the last one of the new vector is NULL before the call. -/
def NullThere (s : Space) (texts : List CString) : Prop :=
  loadWord s (dargv + 8 * texts.length) = some 0

def Far (low a n : Nat) : Prop := a + n ≤ low ∨ stackStart ≤ a

/-- No byte of the vector or of a string is where the strings are laid out. -/
structure Apart (s : Space) (argv : Nat) (texts : List CString) : Prop where
  vector : Far (bottom dargv texts) argv (8 * (texts.length + 1))
  strings : ∀ i (inside : i < texts.length) p, loadWord s (argv + 8 * i) = some p →
    Far (bottom dargv texts) p (texts[i].length + 1)

section layout
variable {m m' : Memory} {i pos d : Nat} {text : CString} {texts : List CString}

theorem word_congr {a b : Nat} (same : ∀ k < 8, m (a + k) = m' (b + k)) : word m a = word m' b :=
  getLittle_congr same

theorem bottom_le : bottom pos texts ≤ pos := by
  induction texts generalizing pos with
  | nil => exact Nat.le_refl _
  | cons text rest ih => exact Nat.le_trans ih (Nat.sub_le _ _)

structure Fits (pos i : Nat) (texts : List CString) : Prop where
  short : ∀ text ∈ texts, text.length ≤ 1024
  room : codeStart + 1025 * texts.length ≤ pos
  below : pos ≤ dargv
  few : i + texts.length ≤ 10

theorem Fits.placed (fits : Fits pos i (text :: texts)) :
    place pos text + text.length + 1 = pos ∧ codeStart ≤ place pos text := by
  have short := fits.short text List.mem_cons_self
  have room := fits.room
  rw [List.length_cons] at room
  unfold place
  omega

theorem Fits.rest (fits : Fits pos i (text :: texts)) : Fits (place pos text) (i + 1) texts := by
  have short := fits.short text List.mem_cons_self
  have room := fits.room
  have below := fits.below
  have few := fits.few
  have placed := fits.placed.1
  rw [List.length_cons] at room few
  refine ⟨fun other member => fits.short other (List.mem_cons_of_mem _ member), ?_, ?_, ?_⟩
  · omega
  · omega
  · omega

theorem Fits.bottom_low (fits : Fits pos i texts) : codeStart ≤ bottom pos texts := by
  induction texts generalizing pos i with
  | nil => exact fits.room
  | cons text rest ih => exact ih fits.rest

theorem fits_start (short : ∀ text ∈ texts, text.length ≤ 1024) (few : texts.length ≤ 10) :
    Fits dargv 0 texts := by
  refine ⟨short, ?_, Nat.le_refl _, by omega⟩
  have start : codeStart + 1025 * 10 ≤ dargv := by decide
  omega

theorem putArg_outside {a : Nat} (string : a < d ∨ d + text.length < a)
    (entry : a < dargv + 8 * i ∨ dargv + 8 * i + 8 ≤ a) : putArg m i d text a = m a := by
  unfold putArg
  rw [setLittle_outside entry, putText_outside string]

theorem putArg_entry (small : d < 2 ^ 64) : word (putArg m i d text) (dargv + 8 * i) = d := by
  unfold word putArg
  rw [getLittle_setLittle]
  exact Nat.mod_eq_of_lt small

theorem putArg_holds (below : d + text.length < dargv) : Holds (putArg m i d text) d text := by
  refine holds_congr (@holds_putText m d text) fun k inside => ?_
  exact setLittle_outside (Or.inl (by omega))

/-- The strings change what is between the lowest of them and pos, and their entries. -/
theorem laid_outside (fits : Fits pos i texts) {a : Nat} (strings : a < bottom pos texts ∨ pos ≤ a)
    (entries : a < dargv + 8 * i ∨ dargv + 8 * (i + texts.length) ≤ a) :
    laid m i pos texts a = m a := by
  induction texts generalizing m i pos with
  | nil => rfl
  | cons text rest ih =>
    have placed := fits.placed.1
    have lower := @bottom_le (place pos text) rest
    have strings : a < bottom (place pos text) rest ∨ pos ≤ a := strings
    rw [List.length_cons] at entries
    rw [laid, ih fits.rest (by omega) (by omega), putArg_outside (by omega) (by omega)]

theorem laid_args (fits : Fits pos i texts) : ∀ k (inside : k < texts.length), ∃ p,
    bottom pos texts ≤ p ∧ p + texts[k].length < pos ∧
      word (laid m i pos texts) (dargv + 8 * (i + k)) = p ∧ Holds (laid m i pos texts) p texts[k] := by
  induction texts generalizing m i pos with
  | nil => exact fun k inside => absurd inside (Nat.not_lt_zero k)
  | cons text rest ih =>
    obtain ⟨placed, _⟩ := fits.placed
    have below := fits.below
    have lower := @bottom_le (place pos text) rest
    have few := fits.rest.few
    intro k inside
    cases k with
    | zero =>
      have top : dargv < 2 ^ 64 := by decide
      have entry := @putArg_entry m i (place pos text) text (by omega)
      have holds := @putArg_holds m i (place pos text) text (by omega)
      rw [List.getElem_cons_zero, laid, Nat.add_zero]
      refine ⟨place pos text, lower, by omega, ?_, ?_⟩
      · refine (word_congr fun j small => ?_).trans entry
        exact laid_outside fits.rest (by omega) (by omega)
      · refine holds_congr holds fun j small => ?_
        exact laid_outside fits.rest (by omega) (by omega)
    | succ k =>
      obtain ⟨p, low, high, entry, holds⟩ :=
        @ih (putArg m i (place pos text) text) (i + 1) (place pos text) fits.rest k
          (Nat.lt_of_succ_lt_succ inside)
      have slot : i + 1 + k = i + (k + 1) := by omega
      rw [slot] at entry
      refine ⟨p, low, ?_, entry, holds⟩
      rw [List.getElem_cons_succ]
      omega

end layout

/- One round of the loop: the end of the vector, or the string that its entry leads to. -/
theorem copyArgv_step {argv left i pos : Nat} {s : Space} {r : Space × Nat × Nat}
    (ran : copyArgv argv (left + 1) i pos s = some r) :
    (word s.memory (argv + 8 * i) = 0 ∧ r = (s, i, pos)) ∨
      ∃ (text : CString) (size : Nat),
        (word s.memory (argv + 8 * i) ≠ 0 ∧ Holds s.memory (word s.memory (argv + 8 * i)) text) ∧
        size ≤ 1024 ∧ (text.length < 2 ^ 31 → size = min text.length 1024) ∧
        copyArgv argv left (i + 1) (pos - (size + 1))
          (s.withMemory (putArg s.memory i (pos - (size + 1)) text)) = some r := by
  unfold copyArgv at ran
  obtain ⟨entry, loaded, ran⟩ := Option.bind_eq_some_iff.mp ran
  unfold loadWord at loaded
  split at loaded
  · obtain rfl := Option.some.inj loaded
    split at ran
    · next last =>
      cases ran
      exact Or.inl ⟨last, rfl⟩
    · next more =>
      obtain ⟨size, measured, ran⟩ := Option.bind_eq_some_iff.mp ran
      dsimp only at ran
      obtain ⟨s₁, copied, ran⟩ := Option.bind_eq_some_iff.mp ran
      obtain ⟨s₂, stored, ran⟩ := Option.bind_eq_some_iff.mp ran
      obtain ⟨text, holds, _, rfl⟩ := strcpy_result copied
      obtain ⟨capped, exact_⟩ := strnlenUser_result measured holds
      unfold storeWord at stored
      split at stored
      · cases stored
        exact Or.inr ⟨text, size, ⟨more, holds⟩, capped, exact_, ran⟩
      · cases stored
  · cases loaded

theorem copyArgv_frame {argv left i pos n pos' : Nat} {s s' : Space}
    (ran : copyArgv argv left i pos s = some (s', n, pos')) :
    i ≤ n ∧ n ≤ i + left ∧ s' = s.withMemory s'.memory := by
  induction left generalizing i pos s with
  | zero =>
    cases ran
    exact ⟨Nat.le_refl _, Nat.le_refl _, rfl⟩
  | succ left ih =>
    rcases copyArgv_step ran with ⟨_, stop⟩ | ⟨text, size, _, _, _, rest⟩
    · cases stop
      exact ⟨Nat.le_refl _, Nat.le_add_right _ _, rfl⟩
    · obtain ⟨low, high, same⟩ := ih rest
      refine ⟨by omega, by omega, same⟩

/-- Where every entry leads to its string at its turn, the loop lays out these strings. -/
theorem copyArgv_lays {argv left i pos n pos' : Nat} {s s' : Space} {texts : List CString}
    (fits : Fits pos i texts) (rounds : i + left = 10)
    (inPlace : InPlace argv s.memory i pos texts)
    (ran : copyArgv argv left i pos s = some (s', n, pos')) :
    s'.memory = laid s.memory i pos texts ∧ n = i + texts.length ∧ pos' = bottom pos texts := by
  induction left generalizing i pos s texts with
  | zero =>
    have few := fits.few
    cases texts with
    | nil =>
      cases ran
      exact ⟨rfl, rfl, rfl⟩
    | cons text rest =>
      rw [List.length_cons] at few
      omega
  | succ left ih =>
    cases texts with
    | nil =>
      rcases copyArgv_step ran with ⟨_, stop⟩ | ⟨_, _, ⟨more, _⟩, _⟩
      · cases stop
        exact ⟨rfl, rfl, rfl⟩
      · exact absurd (inPlace (by omega)) more
    | cons text rest =>
      obtain ⟨⟨some_, holds⟩, inPlace⟩ := inPlace
      rcases copyArgv_step ran with ⟨none_, _⟩ | ⟨read, size, ⟨_, also⟩, _, exact_, ran⟩
      · exact absurd none_ some_
      · have short := fits.short text List.mem_cons_self
        have same := holds.unique also
        have size_eq : size = text.length := by
          rw [exact_ (by rw [← same]; omega), ← same]
          exact Nat.min_eq_left short
        rw [← same, size_eq] at ran
        obtain ⟨memory, count, end_⟩ := ih fits.rest (by omega) inPlace ran
        refine ⟨memory, ?_, end_⟩
        rw [count, List.length_cons]
        omega

/- What the loop leaves is still there when the new program starts, from the strings and from the
   end of the image on. -/
structure Kept (imageEnd pos : Nat) (m m' : Memory) : Prop where
  low : imageEnd ≤ dargv
  same : ∀ a, imageEnd ≤ a → pos ≤ a → m' a = m a

def Found (m : Memory) (imageEnd i : Nat) (texts : List CString) : Prop :=
  ∀ k (inside : k < texts.length), ∃ p, word m (dargv + 8 * (i + k)) = p ∧ Holds m p texts[k] ∧
    (p + texts[k].length < codeStart ∨ imageEnd ≤ p)

theorem Found.rest {m : Memory} {imageEnd i : Nat} {text : CString} {texts : List CString}
    (found : Found m imageEnd i (text :: texts)) : Found m imageEnd (i + 1) texts := by
  intro k inside
  have slot : i + 1 + k = i + (k + 1) := by omega
  rw [slot]
  exact found (k + 1) (Nat.succ_lt_succ inside)

theorem word_zero {m : Memory} {a : Nat} (zero : word m a = 0) : m a = 0 := by
  have low : (m a).toNat = 0 := by
    unfold word getLittle at zero
    omega
  exact UInt8.toNat_inj.mp low

theorem putArg_solid {m : Memory} {i d a : Nat} {text : CString} (low : d ≤ a)
    (high : a < d + text.length) (entry : a < dargv + 8 * i ∨ dargv + 8 * i + 8 ≤ a) :
    putArg m i d text a ≠ 0 := by
  obtain ⟨k, rfl⟩ := Nat.exists_eq_add_of_le low
  unfold putArg
  rw [setLittle_outside entry, putText_inside (by omega)]
  exact chars_solid (by omega)

/-- Where the new program finds short strings and NULL behind them, each entry of argv led to its
    string at its turn: any other short one would be found in its place, of a longer one more would
    be found, and of one that an int does not count the NULL would be a part. -/
theorem inPlace_of_found {argv left i pos n pos' imageEnd : Nat} {s s' : Space} {m : Memory}
    {texts : List CString} (fits : Fits pos i texts) (rounds : i + left = 10)
    (ran : copyArgv argv left i pos s = some (s', n, pos')) (count : n = i + texts.length)
    (kept : Kept imageEnd pos' s'.memory m) (found : Found m imageEnd i texts)
    (null : word m (dargv + 8 * n) = 0) : InPlace argv s.memory i pos texts := by
  have top : dargv + 88 < 2 ^ 31 := by decide
  have below := fits.below
  have few := fits.few
  have room := fits.room
  induction left generalizing i pos s texts with
  | zero =>
    cases texts with
    | nil => exact fun more => absurd more (by omega)
    | cons text rest =>
      rw [List.length_cons] at few
      omega
  | succ left ih =>
    rcases copyArgv_step ran with ⟨last, stop⟩ | ⟨read, size, entry, capped, exact_, ran⟩
    · cases stop
      cases texts with
      | nil => exact fun _ => last
      | cons text rest =>
        rw [List.length_cons] at count
        omega
    · have more := (copyArgv_frame ran).1
      cases texts with
      | nil =>
        rw [List.length_nil] at count
        omega
      | cons text rest =>
        have short := fits.short text List.mem_cons_self
        rw [List.length_cons] at count few room
        have fits' : Fits (pos - (size + 1)) (i + 1) rest :=
          ⟨fun other member => fits.short other (List.mem_cons_of_mem _ member), by omega, by omega,
            by omega⟩
        have inPlace := ih fits' (by omega) ran (by omega) found.rest fits'.below fits'.few fits'.room
        obtain ⟨memory, _, end_⟩ := copyArgv_lays fits' (by omega) inPlace ran
        generalize d_eq : pos - (size + 1) = d at *
        have lower := @bottom_le d rest
        have final : ∀ a, imageEnd ≤ a → d ≤ a → (a < dargv + 8 * (i + 1) ∨ dargv + 8 * n ≤ a) →
            m a = putArg s.memory i d read a := by
          intro a image high entries
          rw [kept.same a image (by omega), memory]
          exact laid_outside fits' (Or.inr high) (by omega)
        obtain ⟨p, at_, holds, apart⟩ := found 0 (Nat.succ_pos _)
        have image := kept.low
        have pointer : word m (dargv + 8 * (i + 0)) = d := by
          refine (word_congr fun k small => ?_).trans (@putArg_entry s.memory i d read (by omega))
          exact final _ (by omega) (by omega) (by omega)
        rw [← at_, pointer] at holds apart
        rw [List.getElem_cons_zero] at holds apart
        by_cases counted : read.length < 2 ^ 31
        · have size_eq := exact_ counted
          by_cases long : 1024 < read.length
          · have zero := holds.ended
            rw [final _ (by omega) (by omega) (by omega)] at zero
            exact absurd zero (putArg_solid (by omega) (by omega) (by omega))
          · have also : Holds m d read := by
              refine holds_congr (@putArg_holds s.memory i d read (by omega)) fun k small => ?_
              exact final _ (by omega) (by omega) (by omega)
            have same := also.unique holds
            have there : place pos text = d := by
              unfold place
              rw [← same]
              omega
            rw [← same] at there ⊢
            refine ⟨entry, ?_⟩
            rw [there]
            exact inPlace
        · have zero := word_zero null
          rw [final _ (by omega) (by omega) (by omega)] at zero
          exact absurd zero (putArg_solid (by omega) (by omega) (by omega))

section image
variable {fsbi : SbInfo} {w : World} {inode : IndexNode} {first len : Nat} {s s' : Space}

def reading (w : World) (s : Space) : World := { w with memory := s.memory, touched := [] }

theorem reading_well (well : WellFormed fsbi w) : WellFormed fsbi (reading w s) :=
  ⟨well.layout, well.some_entries, well.reserved, well.no_wrap⟩

theorem reading_cluster (cluster n : Nat) :
    clusterAt fsbi (reading w s) cluster n = clusterAt fsbi w cluster n :=
  @clusterAt_disk fsbi w (reading w s) rfl cluster n

theorem reading_stored (stored : Stored fsbi w inode first len) :
    Stored fsbi (reading w s) inode first len := by
  refine ⟨⟨fun i less => ?_, ?_⟩, stored.named, stored.room, stored.word⟩
  · rw [reading_cluster]
    exact stored.chain.valid i less
  · rw [reading_cluster]
    exact stored.chain.ends

theorem reading_bytes (cluster o : Nat) :
    chainByte fsbi (reading w s) cluster o = chainByte fsbi w cluster o := by
  unfold chainByte
  rw [reading_cluster]
  rfl

theorem run_read_empty (mounted : Mounted fsbi) (empty : inode.firstCluster = 0) (buf count : Nat) :
    ∃ w', run (FAT32Read fsbi inode buf count 0) w = some ((-EFAULT, 0), w') := by
  have not_zero : ¬ fsbi.bytesPerCluster = 0 := Nat.ne_of_gt mounted.some_bytes
  refine ⟨{ w with fresh := w.fresh.tail }, ?_⟩
  simp only [FAT32Read, if_neg not_zero, if_pos empty, run_bind, alloc, run, Option.bind_some]
  rfl

theorem run_image (well : WellFormed fsbi w) (stored : Stored fsbi w inode first len)
    (low : codeStart + inode.fileSize ≤ dargv) (started : inode.firstCluster ≠ 0) :
    ∃ w', run (FAT32Read fsbi inode codeStart inode.fileSize 0) (reading w s) =
        some (((inode.fileSize : Int), ((0 + inode.fileSize : Nat) : Int)), w') ∧
      Delivered (reading w s) w' codeStart inode.fileSize fun t =>
        chainByte fsbi (reading w s) inode.firstCluster (0 + t) := by
  have top : dargv < 2 ^ 31 := by decide
  have user : dargv ≤ UserMemory.taskSize := by decide
  exact read_right_bytes (reading_well well) (reading_stored stored) (by omega) started
    (by rw [Nat.sub_zero, Nat.min_self]) (Nat.zero_le _) (by omega)
    (Or.inl (Nat.le_trans low user))

theorem readImage_result (well : WellFormed fsbi w) (stored : Stored fsbi w inode first len)
    (low : codeStart + inode.fileSize ≤ dargv) {retval : Int}
    (read : readImage fsbi inode w s = some (s', retval)) (success : 0 ≤ retval) :
    s' = s.withMemory s'.memory ∧
      (∀ t < inode.fileSize, s'.memory (codeStart + t) = chainByte fsbi w inode.firstCluster t) ∧
      ∀ a, a < codeStart ∨ codeStart + inode.fileSize ≤ a → s'.memory a = s.memory a := by
  obtain ⟨⟨⟨result, position⟩, w'⟩, ran, rest⟩ := Option.bind_eq_some_iff.mp read
  dsimp only at rest
  split at rest
  · cases rest
    by_cases empty : inode.firstCluster = 0
    · obtain ⟨_, failed⟩ := @run_read_empty fsbi (reading w s) inode well.layout.mounted empty
        codeStart inode.fileSize
      cases failed.symm.trans ran
      exact absurd success (by decide)
    · obtain ⟨_, ran', delivered⟩ := @run_image fsbi w inode first len s well stored low empty
      cases ran'.symm.trans ran
      refine ⟨rfl, fun t inside => ?_, delivered.outside⟩
      have byte := delivered.inside t inside
      rw [Nat.zero_add, reading_bytes] at byte
      exact byte
  · cases rest

def InRange (a n addr size : Nat) : Prop := a ≤ addr ∧ addr + size ≤ a + n

theorem copyOut_inside {a total buf n : Nat} {buffer : Memory} {offset : Int} {post : Unit → Prop}
    (low : a ≤ buf) (high : buf + n ≤ a + total) (destination : Destination buf n) (after : post ()) :
    Always (InRange a total) Anything (copyOut fsbi buffer offset buf n) post := by
  unfold copyOut
  rw [pieceSize_destination destination]
  by_cases nothing : n = 0
  · rw [if_pos nothing]
    exact after
  · rw [if_neg nothing]
    refine (always_bind _ _ _ _ _).mpr ⟨⟨low, high⟩, ?_⟩
    split
    · exact after
    · trivial

/-- The loop of FAT32_read stays inside the buffer of its caller. -/
theorem readPieces_inside (mounted : Mounted fsbi) {a total fuel cluster buf room n : Nat}
    {offset position : Int} (h : Room fsbi offset room) (low : a ≤ buf) (high : buf + n ≤ a + total)
    (destination : Destination buf n) :
    Always (InRange a total) Anything (readPieces fsbi fuel cluster n offset buf position)
      fun _ => True := by
  induction fuel generalizing cluster buf room n offset position with
  | zero => trivial
  | succ fuel ih =>
    simp only [readPieces, always_bind, always_readSectors]
    intro reply
    cases reply with
    | none => trivial
    | some sectors =>
      simp only [always_bind]
      by_cases last : (n : Int) ≤ room
      · rw [pieceLength_last h last]
        refine copyOut_inside low high destination ?_
        rw [Int.sub_self, if_pos rfl]
        trivial
      · have rest : (n : Int) - room = ((n - room : Nat) : Int) := by omega
        rw [pieceLength_more mounted h last, destination.advance (by omega), rest]
        refine copyOut_inside low (by omega) (destination.first (by omega)) ?_
        split
        · trivial
        · refine (always_bind _ _ _ _ _).mpr ((readFATEntry_always _ _ _ _).mpr fun _ => ?_)
          split
          · trivial
          · exact ih (room_whole mounted) (by omega) (by omega) (destination.rest (by omega))

theorem read_inside (mounted : Mounted fsbi) {buf : Nat} (small : inode.fileSize < 2 ^ 31)
    (destination : Destination buf inode.fileSize) :
    Always (InRange buf inode.fileSize) Anything (FAT32Read fsbi inode buf inode.fileSize 0)
      fun _ => True := by
  have not_zero : ¬ fsbi.bytesPerCluster = 0 := Nat.ne_of_gt mounted.some_bytes
  have counted := @readCount_eq inode 0 inode.fileSize (Nat.zero_le _) (by omega) (by omega)
  rw [Nat.sub_zero, Nat.min_self, Int.natCast_zero] at counted
  have loop := fun cluster => @readPieces_inside fsbi mounted buf inode.fileSize
    ((inode.fileSize : Int).toNat + 1) cluster buf (roomAt fsbi 0) inode.fileSize
    ((0 : Int).tmod fsbi.bytesPerCluster) 0 (room_at mounted (Int.le_refl 0)) (Nat.le_refl _)
    (Nat.le_refl _) destination
  have whole : toInt32 (readCount inode 0 inode.fileSize) = inode.fileSize := by
    rw [counted, toInt32_small small]
  unfold readCount at whole
  unfold FAT32Read
  by_cases empty : inode.firstCluster = 0
  · simp only [not_zero, empty, ↓reduceIte, always_bind, always_alloc, always_pure, implies_true]
  · simp only [not_zero, empty, ↓reduceIte, always_bind, always_alloc, always_pure, whole]
    generalize (toInt32 ((0 : Int).tdiv fsbi.bytesPerCluster)).toNat = links
    exact fun _ => walkChain_always fsbi links inode.firstCluster loop

theorem readImage_some (well : WellFormed fsbi w) (stored : Stored fsbi w inode first len)
    (low : codeStart + inode.fileSize ≤ dargv) (started : inode.firstCluster ≠ 0)
    (mapped : s.mapped codePage = true) :
    ∃ s', readImage fsbi inode w s = some (s', (inode.fileSize : Int)) := by
  have top : dargv < 2 ^ 31 := by decide
  have user : dargv ≤ UserMemory.taskSize := by decide
  have page : dargv ≤ pageSize * codePage + pageSize := by decide
  have start : pageSize * codePage ≤ codeStart := by decide
  obtain ⟨w', ran, _⟩ := @run_image fsbi w inode first len s well stored low started
  have inside := @read_inside fsbi inode well.layout.mounted codeStart (by omega)
    (Or.inl (Nat.le_trans low user))
  have history := touches_run (touches_of_always inside) ran fun r none_ =>
    absurd none_ List.not_mem_nil
  have allowed : ∀ r ∈ w'.touched, s.Accessible r.1 r.2 := by
    intro r member
    obtain ⟨first, last⟩ := history r member
    exact accessible_page mapped (by omega) (by omega)
  refine ⟨s.withMemory w'.memory, Option.bind_eq_some_iff.mpr ⟨_, ran, ?_⟩⟩
  exact if_pos allowed

end image

section call
variable {fsbi : SbInfo} {inode : IndexNode} {first len argv : Nat} {c : Caller} {regs : Regs}
  {texts : List CString} {r : Result} {s : Space}

theorem mapCode_mapped (fresh : Memory) (page : Nat) :
    (mapCode s fresh).mapped page = if page = codePage then true else s.mapped page := by
  unfold mapCode
  split
  · next there =>
    split
    · next code =>
      rw [code]
      exact there
    · rfl
  · exact Function.update_apply s.mapped codePage true page

theorem mapCode_code (fresh : Memory) : (mapCode s fresh).mapped codePage = true := by
  rw [mapCode_mapped, if_pos rfl]

theorem enter_code : (enter c).mapped codePage = true := mapCode_code _

section tables
open AddressSpace TableTree

theorem enter_mapped {boot : Nat → Prop} {caller : AddressSpace.Caller} {k : Kernel} {mm : Mm}
    (ready : CallerReady boot caller)
    (prepared : execPrepare caller.system.kernel caller.system.task = some (k, mm))
    (vforked : c.vforked = true ↔ caller.system.task.flags &&& pfVfork ≠ 0)
    (pages : ∀ w < userEnd, c.space.mapped (w / pageSize) =
      (mapping caller.system.kernel.memory caller.system.task.mm.pgd w).isSome) {w : Nat}
    (user : w < userEnd) : (enter c).mapped (w / pageSize) = (mapping k.memory mm.pgd w).isSome := by
  obtain ⟨⟨k₁, mm₁⟩, first, prepared⟩ := Option.bind_eq_some_iff.mp prepared
  obtain ⟨⟨k₂, done⟩, second, prepared⟩ := Option.bind_eq_some_iff.mp prepared
  obtain ⟨sound, level, space⟩ := exec_space_spec ready.sound ready.own first
  have unshared := exec_space_unshared ready.unshared first
  have code_user : codeStart < userEnd := by decide
  have maps : ∀ v < userEnd, (if c.vforked then noSpace else c.space).mapped (v / pageSize) =
      (mapping k₁.memory mm₁.pgd v).isSome := by
    intro v low
    rw [exec_space_mapping first space.pgd_base]
    by_cases shared : caller.system.task.flags &&& pfVfork ≠ 0
    · rw [if_pos shared, if_pos (vforked.mpr shared)]
      rfl
    · rw [if_neg shared, if_neg (fun own => shared (vforked.mp own))]
      exact pages v low
  obtain ⟨_, _, added⟩ := map_page_exact sound space unshared code_user second
  cases done with
  | false => cases prepared
  | true =>
    cases prepared
    have code : codeStart / pageSize = codePage := rfl
    have there := maps codeStart code_user
    unfold enter
    rw [mapCode_mapped]
    cases added rfl with
    | old mapped same =>
      rw [same, ← maps w user]
      split
      · next page =>
        rw [page, ← code, there, mapped]
        rfl
      · rfl
    | new absent _ _ added =>
      rw [added, code]
      split
      · next page => rw [if_pos ⟨user, page⟩, Option.isSome_some]
      · next page =>
        have other : ¬ (w < userEnd ∧ w / pageSize = codePage) := fun both => page both.2
        rw [if_neg other, ← maps w user]

end tables

theorem code_accessible (mapped : s.mapped codePage = true) {a n : Nat} (low : codeStart ≤ a)
    (high : a + n ≤ stackStart) : s.Accessible a n := by
  have page : stackStart = pageSize * codePage + pageSize := by decide
  have start : pageSize * codePage = codeStart := by decide
  exact accessible_page mapped (by omega) (by omega)

theorem loadWord_word {a v : Nat} (loaded : loadWord s a = some v) : word s.memory a = v := by
  unfold loadWord at loaded
  split at loaded
  · exact Option.some.inj loaded
  · cases loaded

theorem loadWord_some {a v : Nat} (accessible : s.Accessible a 8) (there : word s.memory a = v) :
    loadWord s a = some v := by
  unfold loadWord
  rw [if_pos accessible, there]

theorem loadWord_same {s' : Space} {a : Nat} (mapped : s'.mapped = s.mapped)
    (same : word s'.memory a = word s.memory a) : loadWord s' a = loadWord s a := by
  have accessible : s'.Accessible a 8 ↔ s.Accessible a 8 := by
    unfold Space.Accessible
    rw [mapped]
  unfold loadWord
  rw [same]
  exact if_congr accessible rfl rfl

/-- What do_execve returns with: the loop's count and vector, the file in its place, and what the
    loop left everywhere above. -/
theorem doExecve_result (well : WellFormed fsbi c.world) (stored : Stored fsbi c.world inode first len)
    (low : codeStart + inode.fileSize ≤ dargv) (some_vector : argv ≠ 0)
    (ran : doExecve fsbi inode c regs argv = some r) (success : 0 ≤ r.retval) :
    ∃ s pos, copyArgv argv 10 0 dargv (enter c) = some (s, r.regs.rdi, pos) ∧ r.regs.rsi = dargv ∧
      r.space = s.withMemory r.space.memory ∧
      (∀ t < inode.fileSize,
        r.space.memory (codeStart + t) = chainByte fsbi c.world inode.firstCluster t) ∧
      Kept (codeStart + inode.fileSize) pos s.memory r.space.memory := by
  obtain ⟨⟨s₁, stack, regs₁⟩, copied, ran⟩ := Option.bind_eq_some_iff.mp ran
  obtain ⟨s₂, cleared, ran⟩ := Option.bind_eq_some_iff.mp ran
  obtain ⟨⟨s₃, retval⟩, read, ran⟩ := Option.bind_eq_some_iff.mp ran
  cases ran
  unfold arguments at copied
  rw [if_pos some_vector] at copied
  obtain ⟨⟨s, n, pos⟩, laid_, made⟩ := Option.map_eq_some_iff.mp copied
  cases made
  dsimp only at cleared success
  obtain ⟨same, image, outside⟩ := readImage_result well stored low read success
  unfold clear at cleared
  split at cleared
  · cases cleared
    refine ⟨s, pos, laid_, rfl, same, image, low, fun a behind high => ?_⟩
    rw [outside a (Or.inr behind)]
    exact if_neg (by omega)
  · cases cleared

theorem Intact.found {file : Nat → UInt8} {size : Nat} (intact : Intact r texts file size)
    (vector : r.regs.rsi = dargv) : Found r.space.memory (codeStart + size) 0 texts := by
  intro k inside
  obtain ⟨p, loaded, sees, apart⟩ := intact.args k inside
  rw [vector] at loaded
  rw [Nat.zero_add]
  exact ⟨p, loadWord_word loaded, sees.2, apart⟩

/-- For short strings and a file below them: the new program finds its arguments and its file
    exactly where each entry of argv leads to its string at its turn, and the word behind the last
    entry of the new vector was NULL before. -/
theorem intact_iff (well : WellFormed fsbi c.world) (stored : Stored fsbi c.world inode first len)
    (few : texts.length ≤ 10) (short : ∀ text ∈ texts, text.length ≤ 1024)
    (below : codeStart + inode.fileSize + 10 ≤ bottom dargv texts) (some_vector : argv ≠ 0)
    (ran : doExecve fsbi inode c regs argv = some r) (success : 0 ≤ r.retval) :
    Intact r texts (chainByte fsbi c.world inode.firstCluster) inode.fileSize ↔
      InPlace argv (enter c).memory 0 dargv texts ∧ NullThere (enter c) texts := by
  have fits := fits_start short few
  have top := @bottom_le dargv texts
  have ends : stackStart = dargv + 80 := by decide
  have starts : codeStart ≤ dargv := by decide
  obtain ⟨s, pos, copied, vector, space, image, kept⟩ :=
    doExecve_result well stored (by omega) some_vector ran success
  have mapped : r.space.mapped = (enter c).mapped := by
    have left : s.mapped = (enter c).mapped := by rw [(copyArgv_frame copied).2.2]; rfl
    rw [space]
    exact left
  have code : r.space.mapped codePage = true := by
    rw [mapped]
    exact enter_code
  -- behind the entries nothing has changed
  have behind : InPlace argv (enter c).memory 0 dargv texts →
      loadWord r.space (dargv + 8 * texts.length) = loadWord (enter c) (dargv + 8 * texts.length) := by
    intro inPlace
    obtain ⟨memory, _, end_⟩ := copyArgv_lays fits rfl inPlace copied
    have same : word r.space.memory (dargv + 8 * texts.length) =
        word (enter c).memory (dargv + 8 * texts.length) := by
      refine word_congr fun k small => ?_
      rw [kept.same _ (by omega) (by omega), memory]
      exact laid_outside fits (Or.inr (by omega)) (Or.inr (by omega))
    exact loadWord_same mapped same
  constructor
  · intro intact
    have null := intact.null
    have count := intact.argc
    rw [vector] at null
    rw [count] at copied
    have inPlace := inPlace_of_found fits rfl copied (Nat.zero_add _).symm kept (intact.found vector)
      (loadWord_word null)
    rw [behind inPlace] at null
    exact ⟨inPlace, null⟩
  · rintro ⟨inPlace, null⟩
    obtain ⟨memory, count, end_⟩ := copyArgv_lays fits rfl inPlace copied
    have low := fits.bottom_low
    rw [Nat.zero_add] at count
    refine ⟨count, fun i inside => ?_, ?_, image, ?_⟩
    · obtain ⟨p, above, high, entry, holds⟩ := laid_args fits i inside
      rw [Nat.zero_add, ← memory] at entry
      rw [← memory] at holds
      have same : ∀ a, bottom dargv texts ≤ a → r.space.memory a = s.memory a :=
        fun a above => kept.same a (by omega) (by omega)
      refine ⟨p, ?_, ⟨code_accessible code (by omega) (by omega), ?_⟩, Or.inr (by omega)⟩
      · rw [vector]
        refine loadWord_some (code_accessible code (by omega) (by omega)) ?_
        rw [← entry]
        exact word_congr fun k small => same _ (by omega)
      · exact holds_congr holds fun k small => same _ (by omega)
    · rw [vector, behind inPlace]
      exact null
    · rw [vector]
      omega

end call

/- What is far from the strings is still as the caller had it, and there is a page for them. -/
structure Untouched (given s : Space) (low : Nat) : Prop where
  mapped : ∀ page, given.mapped page = true → s.mapped page = true
  code : s.mapped codePage = true
  same : ∀ a, given.mapped (a / pageSize) = true → a < low ∨ stackStart ≤ a →
    s.memory a = given.memory a

section apart
variable {given s : Space} {low a n argv : Nat} {text : CString} {texts : List CString}

theorem Untouched.accessible (untouched : Untouched given s low) (accessible : given.Accessible a n) :
    s.Accessible a n := fun i inside => untouched.mapped _ (accessible i inside)

theorem Untouched.bytes (untouched : Untouched given s low) (accessible : given.Accessible a n)
    (far : Far low a n) : ∀ i < n, s.memory (a + i) = given.memory (a + i) := by
  intro i inside
  apply untouched.same _ (accessible i inside)
  unfold Far at far
  omega

theorem Untouched.loads (untouched : Untouched given s low) (far : Far low a 8) {v : Nat}
    (loaded : loadWord given a = some v) : loadWord s a = some v := by
  have there := loadWord_word loaded
  unfold loadWord at loaded
  split at loaded
  · next accessible =>
    refine loadWord_some (untouched.accessible accessible) ?_
    rw [← there]
    exact word_congr (untouched.bytes accessible far)
  · cases loaded

theorem Untouched.sees (untouched : Untouched given s low) (far : Far low a (text.length + 1))
    (sees : Sees given a text) : Sees s a text :=
  ⟨untouched.accessible sees.1, holds_congr sees.2 fun i inside =>
    untouched.bytes sees.1 far i (Nat.lt_succ_of_le inside)⟩

theorem Untouched.put (untouched : Untouched given s low) {i d : Nat} (above : low ≤ d)
    (below : d + text.length < dargv) (few : i < 10) :
    Untouched given (s.withMemory (putArg s.memory i d text)) low := by
  refine ⟨untouched.mapped, untouched.code, fun a mapped far => ?_⟩
  have ends : stackStart = dargv + 80 := by decide
  exact (putArg_outside (by omega) (by omega)).trans (untouched.same a mapped far)

theorem mapCode_untouched (fresh : Memory) : Untouched s (mapCode s fresh) low := by
  refine ⟨fun page mapped => ?_, mapCode_code fresh, fun a mapped _ => ?_⟩
  · rw [mapCode_mapped, mapped]
    split
    · rfl
    · rfl
  · unfold mapCode
    split
    · rfl
    · next absent =>
      refine if_neg fun code => absent ?_
      rw [← code]
      exact mapped

structure AllFar (given : Space) (low argv i : Nat) (texts : List CString) : Prop where
  entries : ∀ k ≤ texts.length, Far low (argv + 8 * (i + k)) 8
  strings : ∀ k (inside : k < texts.length) p, loadWord given (argv + 8 * (i + k)) = some p →
    Far low p (texts[k].length + 1)

theorem AllFar.rest {i : Nat} (far : AllFar given low argv i (text :: texts)) :
    AllFar given low argv (i + 1) texts := by
  have slot : ∀ k, i + 1 + k = i + (k + 1) := by omega
  refine ⟨fun k inside => ?_, fun k inside p loaded => ?_⟩
  · rw [slot]
    exact far.entries (k + 1) (Nat.succ_le_succ inside)
  · rw [slot] at loaded
    exact far.strings (k + 1) (Nat.succ_lt_succ inside) p loaded

theorem Apart.all_far (apart : Apart given argv texts) :
    AllFar given (bottom dargv texts) argv 0 texts := by
  refine ⟨fun k inside => ?_, fun k inside p loaded => ?_⟩
  · have vector := apart.vector
    unfold Far at vector ⊢
    omega
  · rw [Nat.zero_add] at loaded
    exact apart.strings k inside p loaded

/-- Far from where the strings go, each entry leads to its string at its turn, and the loop comes
    to its end. -/
theorem copyArgv_runs {i left pos : Nat} (untouched : Untouched given s low)
    (listed : Listed given argv i texts) (far : AllFar given low argv i texts)
    (above : low ≤ bottom pos texts) (fits : Fits pos i texts) (rounds : i + left = 10) :
    InPlace argv s.memory i pos texts ∧ ∃ r, copyArgv argv left i pos s = some r := by
  induction texts generalizing i left pos s with
  | nil =>
    have entry : i < 10 → loadWord s (argv + 8 * i) = some 0 := fun more =>
      untouched.loads (far.entries 0 (Nat.le_refl _)) (listed more)
    refine ⟨fun more => loadWord_word (entry more), ?_⟩
    cases left with
    | zero => exact ⟨_, rfl⟩
    | succ left =>
      refine ⟨(s, i, pos), ?_⟩
      unfold copyArgv
      rw [entry (by omega)]
      rfl
  | cons text rest ih =>
    obtain ⟨⟨p, some_, loaded, sees⟩, listed⟩ := listed
    have few := fits.few
    have short := fits.short text List.mem_cons_self
    obtain ⟨placed, high⟩ := fits.placed
    have below := fits.below
    have ends : stackStart = dargv + 80 := by decide
    have lower := @bottom_le (place pos text) rest
    have above : low ≤ bottom (place pos text) rest := above
    rw [List.length_cons] at few
    have entry := untouched.loads (far.entries 0 (Nat.zero_le _)) loaded
    have string_far := far.strings 0 (Nat.succ_pos _) p loaded
    rw [List.getElem_cons_zero] at string_far
    obtain ⟨accessible, holds⟩ := untouched.sees string_far sees
    rw [Nat.add_zero] at entry
    have there := loadWord_word entry
    obtain ⟨left, rfl⟩ : ∃ n, left = n + 1 := ⟨left - 1, by omega⟩
    have put := @Untouched.put given s low text untouched i (place pos text)
      (Nat.le_trans above lower) (by omega) (by omega)
    obtain ⟨inPlace, r, ran⟩ := @ih _ (i + 1) left (place pos text) put listed far.rest above
      fits.rest (by omega)
    refine ⟨⟨⟨there ▸ some_, there ▸ holds⟩, inPlace⟩, r, ?_⟩
    have size := @strnlenUser_holds s p 1024 text holds accessible (by omega)
    rw [Nat.min_eq_left short] at size
    have no_overlap : ¬ (p < place pos text ∧ place pos text ≤ p + text.length) := by
      unfold Far at string_far
      omega
    have enough : 1024 < userEnd := by decide
    have copied := @strcpy_copies userEnd (place pos text) p s text holds accessible
      (code_accessible untouched.code high (by omega)) no_overlap (by omega)
    have stored : storeWord (s.withMemory (putText s.memory (place pos text) text)) (dargv + 8 * i)
        (place pos text) = some (s.withMemory (putArg s.memory i (place pos text) text)) :=
      if_pos (@code_accessible s untouched.code _ _ (by omega) (by omega))
    unfold copyArgv
    rw [entry]
    dsimp only [Option.bind_eq_bind, Option.bind_some]
    rw [if_neg some_, size]
    dsimp only [Option.bind_some]
    have dest : pos - (text.length + 1) = place pos text := rfl
    rw [dest, copied]
    dsimp only [Option.bind_some]
    rw [stored]
    exact ran

end apart

section own
variable {fsbi : SbInfo} {inode : IndexNode} {first len argv : Nat} {c : Caller} {regs : Regs}
  {texts : List CString}

/- A vforked task does not come back with a vector outside the page of the code. -/
theorem vforked_faults (vforked : c.vforked = true) (some_vector : argv ≠ 0)
    (elsewhere : argv / pageSize ≠ codePage) : doExecve fsbi inode c regs argv = none := by
  have unmapped : ¬ (enter c).Accessible (argv + 8 * 0) 8 := by
    intro accessible
    have first : (enter c).mapped (argv / pageSize) = true := accessible 0 (by decide)
    unfold enter at first
    rw [mapCode_mapped, if_neg elsewhere, if_pos vforked] at first
    cases first
  have faults : copyArgv argv 10 0 dargv (enter c) = none := by
    unfold copyArgv loadWord
    rw [if_neg unmapped]
    rfl
  unfold doExecve arguments
  rw [if_pos some_vector, faults]
  rfl

theorem enter_own (own : c.vforked = false) : enter c = mapCode c.space c.fresh := by
  unfold enter
  rw [own]
  rfl

theorem own_arguments (own : c.vforked = false) (given : Given c.space argv texts)
    (short : ∀ text ∈ texts, text.length ≤ 1024) (apart : Apart c.space argv texts) :
    InPlace argv (enter c).memory 0 dargv texts ∧
      ∃ r, copyArgv argv 10 0 dargv (enter c) = some r := by
  rw [enter_own own]
  exact copyArgv_runs (mapCode_untouched c.fresh) given.listed apart.all_far (Nat.le_refl _)
    (fits_start short given.few) rfl

/-- For such a task do_execve returns, with the size of the file. -/
theorem doExecve_runs (well : WellFormed fsbi c.world) (stored : Stored fsbi c.world inode first len)
    (started : inode.firstCluster ≠ 0) (own : c.vforked = false) (given : Given c.space argv texts)
    (short : ∀ text ∈ texts, text.length ≤ 1024) (apart : Apart c.space argv texts)
    (below : codeStart + inode.fileSize + 10 ≤ bottom dargv texts) :
    ∃ r, doExecve fsbi inode c regs argv = some r ∧ r.retval = inode.fileSize := by
  obtain ⟨inPlace, ⟨s, n, pos⟩, copied⟩ := own_arguments own given short apart
  have fits := fits_start short given.few
  have top := @bottom_le dargv texts
  have ends : stackStart = dargv + 80 := by decide
  obtain ⟨-, -, end_⟩ := copyArgv_lays fits rfl inPlace copied
  have code : s.mapped codePage = true := by
    rw [(copyArgv_frame copied).2.2]
    exact enter_code
  generalize stack_eq : pos - 10 = stack
  have accessible : s.Accessible codeStart (stack - codeStart) :=
    code_accessible code (Nat.le_refl _) (by omega)
  have mapped : (s.withMemory (fill s.memory codeStart (stack - codeStart) 0)).mapped codePage = true :=
    code
  obtain ⟨s', read⟩ := readImage_some well stored (by omega) started mapped
  refine ⟨_, Option.bind_eq_some_iff.mpr ⟨(s, stack, { regs with rdi := n, rsi := dargv }), ?_,
    Option.bind_eq_some_iff.mpr ⟨_, if_pos accessible,
      Option.bind_eq_some_iff.mpr ⟨_, read, rfl⟩⟩⟩, rfl⟩
  unfold arguments
  rw [if_pos given.some_vector, copied, ← stack_eq]
  rfl

end own

/-- In a call of do_execve that succeeds, with strings of 1024 characters at most and a file that
    fits below them, the new program finds its arguments and its file exactly where each entry of
    argv led to its string at its turn, and the word behind the last entry was NULL before. The
    first holds for a task with a space of its own if vector and strings are apart from where the
    strings go. -/
theorem exec_arguments_iff (fsbi : SbInfo) (inode : IndexNode) (first len : Nat) (c : Caller)
    (regs : Regs) (argv : Nat) (texts : List CString) (r : Result)
    (well : WellFormed fsbi c.world) (stored : Stored fsbi c.world inode first len)
    (given : Given c.space argv texts) (short : ∀ text ∈ texts, text.length ≤ 1024)
    (below : codeStart + inode.fileSize + 10 ≤ bottom dargv texts)
    (ran : doExecve fsbi inode c regs argv = some r) (success : 0 ≤ r.retval) :
    (Intact r texts (chainByte fsbi c.world inode.firstCluster) inode.fileSize ↔
      InPlace argv (enter c).memory 0 dargv texts ∧ NullThere (enter c) texts) ∧
    (c.vforked = false → Apart c.space argv texts →
      InPlace argv (enter c).memory 0 dargv texts) :=
  ⟨intact_iff well stored given.few short below given.some_vector ran success,
    fun own apart => (own_arguments own given short apart).1⟩

def threeTexts : List CString :=
  [[⟨0x6c, by decide⟩, ⟨0x73, by decide⟩], [], [⟨0x2d, by decide⟩, ⟨0x61, by decide⟩, ⟨0x6c, by decide⟩]]

def threeMemory : Memory :=
  setLittle (setLittle (setLittle (putText (putText zeros 0x800100 (threeTexts.getD 0 [])) 0x800300
    (threeTexts.getD 2 [])) 0x800000 0x800100 8) 0x800008 0x800200 8) 0x800010 0x800300 8

def threeCaller : Caller where
  vforked := false
  space := ⟨threeMemory, fun page => page = codePage, fun page code => by
    rw [of_decide_eq_true code]
    decide⟩
  fresh := zeros
  world := fullDisk

theorem three_entries : loadWord threeCaller.space 0x800000 = some 0x800100 ∧
    loadWord threeCaller.space 0x800008 = some 0x800200 ∧
    loadWord threeCaller.space 0x800010 = some 0x800300 ∧
    loadWord threeCaller.space 0x800018 = some 0 := by
  decide +kernel

theorem three_given : Given threeCaller.space 0x800000 threeTexts := by
  have mapped : threeCaller.space.mapped codePage = true := by decide
  obtain ⟨first, second, third, last⟩ := three_entries
  refine ⟨by decide, by decide, ⟨0x800100, by decide, first, ?_, ?_⟩,
    ⟨0x800200, by decide, second, ?_, ?_⟩, ⟨0x800300, by decide, third, ?_, ?_⟩, fun _ => last⟩
  · exact code_accessible mapped (by decide) (by decide)
  · exact holds_cons.mpr ⟨rfl, holds_cons.mpr ⟨rfl, holds_nil.mpr rfl⟩⟩
  · exact code_accessible mapped (by decide) (by decide)
  · exact holds_nil.mpr rfl
  · exact code_accessible mapped (by decide) (by decide)
  · exact holds_cons.mpr ⟨rfl, holds_cons.mpr ⟨rfl, holds_cons.mpr ⟨rfl, holds_nil.mpr rfl⟩⟩⟩

theorem three_short : ∀ text ∈ threeTexts, text.length ≤ 1024 := by decide

theorem three_apart : Apart threeCaller.space 0x800000 threeTexts := by
  obtain ⟨first, second, third, _⟩ := three_entries
  refine ⟨Or.inl (by decide), fun i inside p loaded => ?_⟩
  match i, inside with
  | 0, _ =>
    cases first.symm.trans loaded
    exact Or.inl (show 0x800100 + 3 ≤ bottom dargv threeTexts by decide)
  | 1, _ =>
    cases second.symm.trans loaded
    exact Or.inl (show 0x800200 + 1 ≤ bottom dargv threeTexts by decide)
  | 2, _ =>
    cases third.symm.trans loaded
    exact Or.inl (show 0x800300 + 4 ≤ bottom dargv threeTexts by decide)

theorem exec_arguments_iff_three : ∃ r,
    doExecve oneSectorVolume fullInode threeCaller ⟨0, 0, 0, 0, 0⟩ 0x800000 = some r ∧
      Intact r threeTexts (chainByte oneSectorVolume fullDisk 2) 512 := by
  obtain ⟨r, ran, size⟩ := @doExecve_runs oneSectorVolume fullInode 2 1 0x800000 threeCaller
    ⟨0, 0, 0, 0, 0⟩ threeTexts full_well full_stored (by decide) rfl three_given three_short three_apart
    (by decide)
  obtain ⟨exact_, inPlace⟩ := exec_arguments_iff oneSectorVolume fullInode 2 1 threeCaller
    ⟨0, 0, 0, 0, 0⟩ 0x800000 threeTexts r full_well full_stored three_given three_short (by decide) ran
    (by rw [size]; exact Int.natCast_nonneg _)
  have null : loadWord (enter threeCaller) 0x9fffc8 = some 0 := by decide +kernel
  exact ⟨r, ran, exact_.mpr ⟨inPlace rfl three_apart, null⟩⟩

/- A task that gives one string of one character, with a nonzero word behind where its entry goes. -/
def oneMemory : Memory := fun a =>
  if a = 0x800001 then 0x01
  else if a = 0x800002 then 0x80
  else if a = 0x800100 then 0x61
  else if a = 0x9fffb8 then 0x01
  else 0

def oneCaller : Caller where
  vforked := false
  space := ⟨oneMemory, fun page => page = codePage, fun page code => by
    rw [of_decide_eq_true code]
    decide⟩
  fresh := zeros
  world := fullDisk

def oneText : List CString := [[⟨0x61, by decide⟩]]

theorem one_entry : loadWord oneCaller.space 0x800000 = some 0x800100 := by decide

theorem one_given : Given oneCaller.space 0x800000 oneText := by
  refine ⟨by decide, by decide, ⟨0x800100, by decide, one_entry, ?_, ?_⟩, fun _ => by decide⟩
  · exact code_accessible (by decide : decide (codePage = codePage) = true) (by decide) (by decide)
  · exact holds_cons.mpr ⟨rfl, holds_nil.mpr rfl⟩

theorem one_short : ∀ text ∈ oneText, text.length ≤ 1024 := by decide

theorem one_apart : Apart oneCaller.space 0x800000 oneText := by
  refine ⟨Or.inl (by decide), fun i inside p loaded => ?_⟩
  obtain rfl : i = 0 := Nat.lt_one_iff.mp inside
  cases one_entry.symm.trans loaded
  exact Or.inl (show 0x800100 + 2 ≤ bottom dargv oneText by decide)

theorem one_runs : ∃ r,
    doExecve oneSectorVolume fullInode oneCaller ⟨0, 0, 0, 0, 0⟩ 0x800000 = some r ∧
      r.retval = fullInode.fileSize :=
  doExecve_runs full_well full_stored (by decide) rfl one_given one_short one_apart (by decide)

/-- The entry behind the last argument is what the stack of the caller held there. -/
theorem exec_arguments_unterminated :
    ¬ ∀ (fsbi : SbInfo) (inode : IndexNode) (first len : Nat) (c : Caller) (regs : Regs) (argv : Nat)
      (texts : List CString) (r : Result), WellFormed fsbi c.world →
        Stored fsbi c.world inode first len → Given c.space argv texts →
        codeStart + inode.fileSize + 10 ≤ bottom dargv texts →
        doExecve fsbi inode c regs argv = some r → 0 ≤ r.retval →
          Intact r texts (chainByte fsbi c.world inode.firstCluster) inode.fileSize := by
  intro claim
  obtain ⟨r, ran, size⟩ := one_runs
  have success : 0 ≤ r.retval := by
    rw [size]
    exact Int.natCast_nonneg _
  have intact := claim oneSectorVolume fullInode 2 1 oneCaller ⟨0, 0, 0, 0, 0⟩ 0x800000 oneText r
    full_well full_stored one_given (by decide) ran success
  have null := ((@intact_iff _ _ _ _ _ _ _ _ _ full_well full_stored (by decide) one_short (by decide)
    (by decide) ran success).mp intact).2
  have used : loadWord (enter oneCaller) 0x9fffb8 = some 1 := by decide
  cases used.symm.trans null

end ExecArguments

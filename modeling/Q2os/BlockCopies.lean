import Q2os.StringMachine
import Q2os.ByteMemory

/- The functions of lib.h on blocks of bytes, as their listings have them. -/
namespace BlockCopies
open StringMachine

def memcpyLines : List Line :=
  [.cld,
    .rep (.movs 8),
    .testb 4,
    .je (.forward 1),
    .op (.movs 4),
    .label 1,
    .testb 2,
    .je (.forward 2),
    .op (.movs 2),
    .label 2,
    .testb 1,
    .je (.forward 3),
    .op (.movs 1),
    .label 3]

def memcpy (src dst num : BitVec 64) (m : Machine) : Machine :=
  { m with rcx := num.sdiv 8, operand := num, rdi := dst, rsi := src }

def memsetLines : List Line :=
  [.cld,
    .rep (.stos 8),
    .testb 4,
    .je (.forward 1),
    .op (.stos 4),
    .label 1,
    .testb 2,
    .je (.forward 2),
    .op (.stos 2),
    .label 2,
    .testb 1,
    .je (.forward 3),
    .op (.stos 1),
    .label 3]

def memset (address : BitVec 64) (c : BitVec 8) (count : BitVec 64) (m : Machine) : Machine :=
  { m with
    rax := c.setWidth 64 * 0x0101010101010101
    operand := count
    rcx := count.sdiv 8
    rdi := address }

def verifyArea (addr size : BitVec 64) : Bool := addr + size ≤ 0x00007fffffffffff

def copyUserLines : List Line := [.rep (.movs 8), .movqRcx, .rep (.movs 1)]

def copyUser (src dst size : BitVec 64) (m : Machine) : Machine :=
  { m with operand := size &&& 7, rcx := size / 8, rdi := dst, rsi := src }

/- copy_from_user and copy_to_user, which check the address on the user's side, with what they
   return. -/
def CopyChecked (addr src dst size : BitVec 64) (m m' : Machine) (ret : BitVec 64) : Prop :=
  if verifyArea addr size then Runs copyUserLines (copyUser src dst size m) m' ∧ ret = m'.rcx
  else m' = m ∧ ret = 0

def CopyFromUser (src dst size : BitVec 64) : Machine → Machine → BitVec 64 → Prop :=
  CopyChecked src src dst size

def CopyToUser (src dst size : BitVec 64) : Machine → Machine → BitVec 64 → Prop :=
  CopyChecked dst src dst size

section counts
variable {num : BitVec 64}

theorem sdiv_toNat (positive : num.toNat < 2 ^ 63) : (num.sdiv 8).toNat = num.toNat / 8 := by
  have sign : num.msb = false := by
    rw [BitVec.msb_eq_decide]
    simpa using positive
  have eight : (8 : BitVec 64).msb = false := by decide
  rw [BitVec.sdiv_eq, sign, eight]
  rfl

theorem bits_sum : ∀ i < 256, let x := BitVec.ofNat 8 i
    (if x &&& 4 = 0 then 0 else 4) + (if x &&& 2 = 0 then 0 else 2) +
      (if x &&& 1 = 0 then 0 else 1) = i % 8 := by decide +kernel

theorem tail_sum (num : BitVec 64) : (if num.setWidth 8 &&& 4 = 0 then 0 else 4) +
    (if num.setWidth 8 &&& 2 = 0 then 0 else 2) + (if num.setWidth 8 &&& 1 = 0 then 0 else 1) =
      num.toNat % 8 := by
  have low : BitVec.ofNat 8 (num.toNat % 256) = num.setWidth 8 := by
    apply BitVec.eq_of_toNat_eq
    simp
  have sum := bits_sum (num.toNat % 256) (Nat.mod_lt _ (by decide))
  simp only [low] at sum
  omega

end counts

section copies
variable {M : Bytes} {src dst w : BitVec 64} {n total : Nat} {m : Machine}

theorem optional_copying {mask : BitVec 8} {size : Nat} (copying : Copying M src dst w n m)
    (forward : Forward src dst total)
    (more : n + (if w.setWidth 8 &&& mask = 0 then 0 else size) ≤ total) :
    Copying M src dst w (n + if w.setWidth 8 &&& mask = 0 then 0 else size)
      (skipping mask (.movs size) m) := by
  have tested : Copying M src dst w n (m.test mask) :=
    ⟨copying.rsi, copying.rdi, copying.operand, copying.df, copying.memory⟩
  rw [skipping, copying.operand]
  by_cases clear : w.setWidth 8 &&& mask = 0
  · simp only [clear, ↓reduceIte]
    exact tested
  · simp only [clear, ↓reduceIte] at more ⊢
    exact movs_copying tested forward more

theorem optional_filling {byte mask : BitVec 8} {size : Nat}
    (filling : Filling M dst w byte n m ∧ Uniform 8 m.rax byte) (small : size ≤ 8)
    (more : n + (if w.setWidth 8 &&& mask = 0 then 0 else size) < 2 ^ 64) :
    Filling M dst w byte (n + if w.setWidth 8 &&& mask = 0 then 0 else size)
      (skipping mask (.stos size) m) ∧ Uniform 8 (skipping mask (.stos size) m).rax byte := by
  obtain ⟨filling, uniform⟩ := filling
  have tested : Filling M dst w byte n (m.test mask) :=
    ⟨filling.rdi, filling.operand, filling.df, filling.memory⟩
  rw [skipping, filling.operand]
  by_cases clear : w.setWidth 8 &&& mask = 0
  · simp only [clear, ↓reduceIte]
    exact ⟨tested, uniform⟩
  · simp only [clear, ↓reduceIte] at more ⊢
    exact ⟨stos_filling tested uniform small more, uniform⟩

theorem tmp_uniform (c : BitVec 8) : Uniform 8 (c.setWidth 64 * 0x0101010101010101) c := by
  have all : ∀ k < 256, ∀ i < 8, ((BitVec.ofNat 8 k).setWidth 64 *
      (0x0101010101010101 : BitVec 64)).extractLsb' (8 * i) 8 = BitVec.ofNat 8 k := by
    decide +kernel
  intro i small
  have here := all c.toNat c.isLt i small
  rwa [BitVec.ofNat_toNat, BitVec.setWidth_eq] at here

theorem rounds_rcx (o : Op) (count : Nat) :
    (rounds o count m).rcx = m.rcx - BitVec.ofNat 64 count := by
  induction count generalizing m with
  | zero => simp [rounds]
  | succ count ih =>
    rw [rounds, ih]
    bv_omega

theorem memcpy_copies (m : Machine) {src dst num : BitVec 64} (positive : num.toNat < 2 ^ 63)
    (forward : Forward src dst num.toNat) : ∃ m', Runs memcpyLines (memcpy src dst num m) m' ∧
      m'.memory = copied m.memory src dst num.toNat := by
  have sum := tail_sum num
  have start : Copying m.memory src dst num 0 { memcpy src dst num m with df := false } := by
    constructor <;> simp [memcpy]
  have eight : Copying m.memory src dst num (0 + 8 * (num.toNat / 8)) (rounds (.movs 8)
      (num.sdiv 8).toNat { memcpy src dst num m with df := false }) := by
    rw [sdiv_toNat positive]
    exact rounds_copying start forward (by omega)
  have four : Copying _ _ _ _ (_ + if num.setWidth 8 &&& 4 = 0 then 0 else 4) _ :=
    optional_copying eight forward (by omega)
  have two : Copying _ _ _ _ (_ + if num.setWidth 8 &&& 2 = 0 then 0 else 2) _ :=
    optional_copying four forward (by omega)
  have one : Copying _ _ _ _ (_ + if num.setWidth 8 &&& 1 = 0 then 0 else 1) _ :=
    optional_copying two forward (by omega)
  refine ⟨_, ?_, one.memory.trans (congrArg _ (by omega))⟩
  apply reaches_line rfl rfl
  apply reaches_line rfl rfl
  apply reaches_optional rfl rfl rfl rfl rfl
  apply reaches_optional rfl rfl rfl rfl rfl
  apply reaches_optional rfl rfl rfl rfl rfl
  exact .refl

theorem memset_lines {address count : BitVec 64} {c : BitVec 8} (positive : count.toNat < 2 ^ 63)
    (rcx : m.rcx = count.sdiv 8) (operand : m.operand = count) (rdi : m.rdi = address)
    (uniform : Uniform 8 m.rax c) :
    ∃ m', Runs memsetLines m m' ∧ m'.memory = filled m.memory address c count.toNat := by
  have sum := tail_sum count
  have start : Filling m.memory address count c 0 { m with df := false } := by
    constructor <;> simp [rdi, operand]
  have eight : Filling m.memory address count c (0 + 8 * (count.toNat / 8)) (rounds (.stos 8)
      m.rcx.toNat { m with df := false }) ∧ Uniform 8 (rounds (.stos 8)
      m.rcx.toNat { m with df := false }).rax c := by
    have times : m.rcx.toNat = count.toNat / 8 := by rw [rcx, sdiv_toNat positive]
    rw [times]
    exact rounds_filling start uniform (by decide) (by omega)
  have four : Filling _ _ _ _ (_ + if count.setWidth 8 &&& 4 = 0 then 0 else 4) _ ∧ _ :=
    optional_filling eight (by decide) (by omega)
  have two : Filling _ _ _ _ (_ + if count.setWidth 8 &&& 2 = 0 then 0 else 2) _ ∧ _ :=
    optional_filling four (by decide) (by omega)
  have one : Filling _ _ _ _ (_ + if count.setWidth 8 &&& 1 = 0 then 0 else 1) _ ∧ _ :=
    optional_filling two (by decide) (by omega)
  refine ⟨_, ?_, one.1.memory.trans (congrArg _ (by omega))⟩
  apply reaches_line rfl rfl
  apply reaches_line rfl rfl
  apply reaches_optional rfl rfl rfl rfl rfl
  apply reaches_optional rfl rfl rfl rfl rfl
  apply reaches_optional rfl rfl rfl rfl rfl
  exact .refl

/- With the value as a variable, so that no literal of 64 bits is unfolded. -/
theorem operands_fill (m : Machine) {address count tmp : BitVec 64} {c : BitVec 8}
    (positive : count.toNat < 2 ^ 63) (uniform : Uniform 8 tmp c) :
    ∃ m', Runs memsetLines
        { m with rax := tmp, operand := count, rcx := count.sdiv 8, rdi := address } m' ∧
      m'.memory = filled m.memory address c count.toNat :=
  memset_lines positive rfl rfl rfl uniform

end copies

theorem memset_fills (m : Machine) {address count : BitVec 64} (c : BitVec 8)
    (positive : count.toNat < 2 ^ 63) :
    ∃ m', Runs memsetLines (memset address c count m) m' ∧
      m'.memory = filled m.memory address c count.toNat :=
  operands_fill m positive (tmp_uniform c)

section user
variable {M : Bytes} {src dst size w : BitVec 64} {m : Machine}

theorem rep_copying {step n total : Nat} (copying : Copying M src dst w n m)
    (forward : Forward src dst total) (more : n + step * m.rcx.toNat ≤ total) :
    Copying M src dst w (n + step * m.rcx.toNat) ((Line.rep (.movs step)).act m) ∧
      ((Line.rep (.movs step)).act m).rcx = 0 := by
  refine ⟨rounds_copying copying forward more, ?_⟩
  have left : ((Line.rep (.movs step)).act m).rcx = m.rcx - BitVec.ofNat 64 m.rcx.toNat :=
    rounds_rcx _ _
  rw [left, BitVec.ofNat_toNat, BitVec.setWidth_eq, BitVec.sub_self]
  rfl

theorem user_lines (copying : Copying M src dst w 0 m) (forward : Forward src dst size.toNat)
    (times : m.rcx.toNat = size.toNat / 8) (left : w.toNat = size.toNat % 8) :
    ∃ m', Runs copyUserLines m m' ∧ m'.memory = copied M src dst size.toNat ∧ m'.rcx = 0 := by
  obtain ⟨quads, -⟩ : Copying M src dst w (0 + 8 * m.rcx.toNat) ((Line.rep (.movs 8)).act m) ∧ _ :=
    rep_copying copying forward (by omega)
  rw [times] at quads
  have moved : Copying M src dst w (0 + 8 * (size.toNat / 8))
      (Line.movqRcx.act ((Line.rep (.movs 8)).act m)) :=
    ⟨quads.rsi, quads.rdi, quads.operand, quads.df, quads.memory⟩
  have bytes : (Line.movqRcx.act ((Line.rep (.movs 8)).act m)).rcx.toNat = size.toNat % 8 := by
    rw [← left, ← quads.operand]
    rfl
  obtain ⟨whole, zero⟩ : Copying M src dst w (_ + 1 * _) (Line.act _ (.rep (.movs 1))) ∧ _ :=
    rep_copying moved forward (by omega)
  refine ⟨_, ?_, whole.memory.trans (congrArg _ (by omega)), zero⟩
  apply reaches_line rfl rfl
  apply reaches_line rfl rfl
  apply reaches_line rfl rfl
  exact .refl

theorem operands_move (m : Machine) {count : BitVec 64} (up : m.df = false)
    (forward : Forward src dst size.toNat) (times : count.toNat = size.toNat / 8)
    (left : w.toNat = size.toNat % 8) :
    ∃ m', Runs copyUserLines { m with operand := w, rcx := count, rdi := dst, rsi := src } m' ∧
      m'.memory = copied m.memory src dst size.toNat ∧ m'.rcx = 0 := by
  have start : Copying m.memory src dst w 0
      { m with operand := w, rcx := count, rdi := dst, rsi := src } := by
    constructor <;> simp [up]
  exact user_lines start forward times left

theorem copyUser_copies (m : Machine) (up : m.df = false) (forward : Forward src dst size.toNat) :
    ∃ m', Runs copyUserLines (copyUser src dst size m) m' ∧
      m'.memory = copied m.memory src dst size.toNat ∧ m'.rcx = 0 := by
  have times : (size / 8).toNat = size.toNat / 8 := by simp
  have left : (size &&& 7).toNat = size.toNat % 8 := by
    have mask : (size &&& 7).toNat = size.toNat &&& 7 := by simp
    rw [mask]
    exact Nat.and_two_pow_sub_one_eq_mod size.toNat 3
  exact operands_move m up forward times left

/- A call that has copied all bytes where its check passes, and none where it fails; the two cannot
   be told apart by what it returns. -/
structure Answers (passes : Bool) (src dst size : BitVec 64) (m : Machine)
    (call : Machine → BitVec 64 → Prop) : Prop where
  ends : ∃ m' ret, call m' ret
  zero : ∀ m' ret, call m' ret → ret = 0
  memory : ∀ m' ret, call m' ret →
    m'.memory = if passes then copied m.memory src dst size.toNat else m.memory

theorem answers_of {passes : Bool} {last : Machine} {call : Machine → BitVec 64 → Prop}
    (only : ∀ m' ret, call m' ret ↔ m' = last ∧ ret = 0)
    (memory : last.memory = if passes then copied m.memory src dst size.toNat else m.memory) :
    Answers passes src dst size m call where
  ends := ⟨last, 0, (only last 0).mpr ⟨rfl, rfl⟩⟩
  zero m' ret called := ((only m' ret).mp called).2
  memory m' ret called := ((only m' ret).mp called).1 ▸ memory

theorem copyChecked_answers (m : Machine) (addr : BitVec 64) (up : m.df = false)
    (forward : Forward src dst size.toNat) :
    Answers (verifyArea addr size) src dst size m (CopyChecked addr src dst size m) := by
  obtain ⟨last, runs, memory, zero⟩ := copyUser_copies m up forward
  cases checked : verifyArea addr size with
  | false =>
    have only : ∀ m' ret, CopyChecked addr src dst size m m' ret ↔ m' = m ∧ ret = 0 := by
      simp [CopyChecked, checked]
    exact answers_of only (by simp)
  | true =>
    have only : ∀ m' ret, CopyChecked addr src dst size m m' ret ↔ m' = last ∧ ret = 0 := by
      intro m' ret
      simp only [CopyChecked, checked, ↓reduceIte]
      constructor
      · rintro ⟨other, rfl⟩
        obtain rfl := runs_unique runs other
        exact ⟨rfl, zero⟩
      · rintro ⟨rfl, rfl⟩
        exact ⟨runs, zero.symm⟩
    exact answers_of only (by simp [memory])

/-- copy_from_user and copy_to_user return 0 in any case: behind a copy of all bytes, and where the
    check of the user's address fails and none is copied. -/
theorem user_copies_return (m : Machine) (up : m.df = false) (forward : Forward src dst size.toNat) :
    Answers (verifyArea src size) src dst size m (CopyFromUser src dst size m) ∧
      Answers (verifyArea dst size) src dst size m (CopyToUser src dst size m) :=
  ⟨copyChecked_answers m src up forward, copyChecked_answers m dst up forward⟩

end user

def bytesOf (memory : Bytes) : ByteMemory.Memory := fun a => ⟨memory (BitVec.ofNat 64 a)⟩

section bytes
variable {src dst : BitVec 64} {n a : Nat}

theorem offset_of (below : a < 2 ^ 64) (ends : dst.toNat + n ≤ 2 ^ 64) :
    (BitVec.ofNat 64 a - dst).toNat < n ↔ dst.toNat ≤ a ∧ a < dst.toNat + n := by
  have bound := dst.isLt
  rw [BitVec.toNat_sub, BitVec.toNat_ofNat, Nat.mod_eq_of_lt below]
  omega

theorem bytesOf_copied (memory : Bytes) (below : a < 2 ^ 64) (ends : dst.toNat + n ≤ 2 ^ 64) :
    bytesOf (copied memory src dst n) a =
      ByteMemory.copy (bytesOf memory) src.toNat (bytesOf memory) dst.toNat n a := by
  have inside := offset_of below ends
  simp only [bytesOf, copied, ByteMemory.copy, inside]
  split
  · next within =>
    have same : src + (BitVec.ofNat 64 a - dst) = BitVec.ofNat 64 (src.toNat + (a - dst.toNat)) := by
      bv_omega
    rw [same]
  · rfl

theorem bytesOf_filled (memory : Bytes) (c : BitVec 8) (below : a < 2 ^ 64)
    (ends : dst.toNat + n ≤ 2 ^ 64) : bytesOf (filled memory dst c n) a =
      ByteMemory.fill (bytesOf memory) dst.toNat n ⟨c⟩ a := by
  have inside := offset_of below ends
  simp only [bytesOf, filled, ByteMemory.fill, inside]
  split <;> rfl

/- Within the addresses, a block that is copied downwards or past its end is read before it is
   written. -/
theorem forward_of (small : n < 2 ^ 64) (reads : src.toNat + n ≤ 2 ^ 64)
    (way : dst.toNat ≤ src.toNat ∨ src.toNat + n ≤ dst.toNat) : Forward src dst n := by
  refine ⟨small, ?_⟩
  by_cases same : dst = src
  · exact .inl same
  · have other : dst.toNat ≠ src.toNat := fun equal => same (BitVec.eq_of_toNat_eq equal)
    have bound := dst.isLt
    right
    rw [BitVec.toNat_sub]
    omega

/-- The listing of memcpy does what a copy of bytes does, whatever the length leaves for the shorter
    instructions, also to a place that overlaps the block from below. -/
theorem memcpy_refines (m : Machine) {num : BitVec 64} (positive : num.toNat < 2 ^ 63)
    (reads : src.toNat + num.toNat ≤ 2 ^ 64) (writes : dst.toNat + num.toNat ≤ 2 ^ 64)
    (way : dst.toNat ≤ src.toNat ∨ src.toNat + num.toNat ≤ dst.toNat) :
    ∃ m', Runs memcpyLines (memcpy src dst num m) m' ∧ ∀ a < 2 ^ 64, bytesOf m'.memory a =
      ByteMemory.copy (bytesOf m.memory) src.toNat (bytesOf m.memory) dst.toNat num.toNat a := by
  obtain ⟨m', runs, memory⟩ := memcpy_copies m positive (forward_of (by omega) reads way)
  refine ⟨m', runs, fun a below => ?_⟩
  rw [memory]
  exact bytesOf_copied m.memory below writes

/-- The listing of memset does what a fill of bytes does. -/
theorem memset_refines (m : Machine) {count : BitVec 64} (c : BitVec 8)
    (positive : count.toNat < 2 ^ 63) (writes : dst.toNat + count.toNat ≤ 2 ^ 64) :
    ∃ m', Runs memsetLines (memset dst c count m) m' ∧ ∀ a < 2 ^ 64, bytesOf m'.memory a =
      ByteMemory.fill (bytesOf m.memory) dst.toNat count.toNat ⟨c⟩ a := by
  obtain ⟨m', runs, memory⟩ := memset_fills m c positive
  refine ⟨m', runs, fun a below => ?_⟩
  rw [memory]
  exact bytesOf_filled m.memory c below writes

end bytes

section small

def blank : Machine where
  rax := 0
  rcx := 0
  rsi := 0
  rdi := 0
  operand := 0
  zf := false
  sf := false
  of := false
  df := false
  memory _ := 7

theorem memcpy_refines_down : ∃ m', Runs memcpyLines (memcpy 0x1003 0x1000 11 blank) m' ∧
    ∀ a < 2 ^ 64, bytesOf m'.memory a =
      ByteMemory.copy (bytesOf blank.memory) 0x1003 (bytesOf blank.memory) 0x1000 11 a :=
  memcpy_refines blank (by decide) (by decide) (by decide) (.inl (by decide))

theorem memset_refines_eleven : ∃ m', Runs memsetLines (memset 0x1000 0xff 11 blank) m' ∧
    ∀ a < 2 ^ 64, bytesOf m'.memory a = ByteMemory.fill (bytesOf blank.memory) 0x1000 11 0xff a :=
  memset_refines blank 0xff (by decide) (by decide)

/- Eight bytes from the kernel's memory to a user: to read them is refused, to write them is not. -/
theorem user_copies_return_kernel :
    Answers (verifyArea 0xffff800000000000 8) 0xffff800000000000 0x1000 8 blank
        (CopyFromUser 0xffff800000000000 0x1000 8 blank) ∧
      Answers (verifyArea 0x1000 8) 0xffff800000000000 0x1000 8 blank
        (CopyToUser 0xffff800000000000 0x1000 8 blank) :=
  user_copies_return blank rfl ⟨by decide, .inr (by decide)⟩

end small

end BlockCopies

import Q2os.BlockCopies
import Q2os.StringCopy

/- strlen, strncpy and strcmp of lib.h, as their listings have them. -/
namespace StringListings
open StringMachine BlockCopies
open OpenFailure (stringAt)
open StringCopy (chars)
open PathWalk (CString)

def strlenLines : List Line := [.cld, .repne .scasb, .notlEcx, .declEcx]

def strlen (string : BitVec 64) (m : Machine) : Machine :=
  { m with rcx := 0xffffffff, rdi := string, rax := 0 }

def strncpyLines : List Line :=
  [.cld,
    .label 1,
    .decqRcx,
    .js (.forward 2),
    .op .lodsb,
    .op (.stos 1),
    .testAl,
    .jne (.back 1),
    .rep (.stos 1),
    .label 2]

def strncpy (dest src count : BitVec 64) (m : Machine) : Machine :=
  { m with rsi := src, rdi := dest, rcx := count }

section scan
variable {M : Bytes} {m : Machine} {a n : Nat}

theorem bytesOf_zero : bytesOf M a = 0 ↔ M (BitVec.ofNat 64 a) = 0 := by
  rw [← UInt8.toBitVec_inj]
  rfl

theorem stringAt_length (M : ByteMemory.Memory) (a n : Nat) :
    min ((stringAt M a (n + 1)).length + 1) (n + 1) = (stringAt M a n).length + 1 := by
  induction n generalizing a with
  | zero => simp [stringAt]
  | succ n ih =>
    have rest := ih (a + 1)
    unfold stringAt
    split
    · rw [List.length_cons, List.length_cons]
      omega
    · simp

theorem scan_found (found : M (BitVec.ofNat 64 a) = 0) (al : m.al = 0)
    (rdi : m.rdi = BitVec.ofNat 64 a) (memory : m.memory = M) :
    roundsUntil .scasb (n + 1) m = { Op.scasb.act m with rcx := m.rcx - 1 } := by
  have stops : (Op.scasb.act m).zf = true := by
    simp [Op.act, Machine.compare, al, memory, rdi, found]
  simp only [roundsUntil, stops, ↓reduceIte]

theorem scan_missed (missed : M (BitVec.ofNat 64 a) ≠ 0) (al : m.al = 0)
    (rdi : m.rdi = BitVec.ofNat 64 a) (memory : m.memory = M) :
    roundsUntil .scasb (n + 1) m =
      roundsUntil .scasb n { Op.scasb.act m with rcx := m.rcx - 1 } := by
  have goes : (Op.scasb.act m).zf = false := by
    have other : (0 : BitVec 8) - M (BitVec.ofNat 64 a) ≠ 0 := by
      intro same
      exact missed (by bv_omega)
    simpa [Op.act, Machine.compare, al, memory, rdi] using other
  simp only [roundsUntil, goes, Bool.false_eq_true, ↓reduceIte]

theorem scan_counts (al : m.al = 0) (up : m.df = false) (rdi : m.rdi = BitVec.ofNat 64 a)
    (memory : m.memory = M) : (roundsUntil .scasb n m).rcx =
        m.rcx - BitVec.ofNat 64 (min ((stringAt (bytesOf M) a n).length + 1) n) ∧
      (roundsUntil .scasb n m).memory = M := by
  induction n generalizing m a with
  | zero => simp [roundsUntil, memory]
  | succ n ih =>
    by_cases found : M (BitVec.ofNat 64 a) = 0
    · have first : stringAt (bytesOf M) a (n + 1) = [] := by
        rw [stringAt, dif_neg (not_not.mpr (bytesOf_zero.mpr found))]
      rw [scan_found found al rdi memory, first]
      simpa [Op.act, Machine.compare] using memory
    · have solid : bytesOf M a ≠ 0 := fun zero => found (bytesOf_zero.mp zero)
      have first : (stringAt (bytesOf M) a (n + 1)).length =
          (stringAt (bytesOf M) (a + 1) n).length + 1 := by
        rw [stringAt, dif_pos solid, List.length_cons]
      obtain ⟨rcx, same⟩ := @ih { Op.scasb.act m with rcx := m.rcx - 1 } (a + 1) al up
        (by simp [Op.act, Machine.delta, up, rdi, BitVec.ofNat_add]) memory
      rw [scan_missed found al rdi memory, first]
      refine ⟨?_, same⟩
      rw [rcx, Nat.add_min_add_right, BitVec.ofNat_add, BitVec.sub_sub, BitVec.add_comm]
      rfl

theorem length_left {l : Nat} (small : l < 2 ^ 32 - 1) :
    ~~~(BitVec.setWidth 32 (BitVec.ofNat 64 (2 ^ 32 - 1) - BitVec.ofNat 64 (l + 1))) - 1 =
      BitVec.ofNat 32 l := by
  have left : BitVec.setWidth 32 (BitVec.ofNat 64 (2 ^ 32 - 1) - BitVec.ofNat 64 (l + 1)) =
      BitVec.ofNat 32 (2 ^ 32 - 2 - l) := by
    apply BitVec.eq_of_toNat_eq
    rw [BitVec.toNat_setWidth, BitVec.toNat_sub, BitVec.toNat_ofNat, BitVec.toNat_ofNat,
      BitVec.toNat_ofNat]
    omega
  have one : (1 : BitVec 32).toNat = 1 := rfl
  rw [left]
  apply BitVec.eq_of_toNat_eq
  rw [BitVec.toNat_sub, BitVec.toNat_not, BitVec.toNat_ofNat, BitVec.toNat_ofNat, one]
  omega

theorem stringAt_short (M : ByteMemory.Memory) (a n : Nat) : (stringAt M a n).length ≤ n := by
  have more := stringAt_length M a n
  omega

theorem strlen_lines (al : m.al = 0) (rdi : m.rdi = BitVec.ofNat 64 a)
    (rcx : m.rcx = BitVec.ofNat 64 (n + 1)) (wide : n + 1 = 2 ^ 32 - 1) :
    ∃ m', Runs strlenLines m m' ∧
      m'.rcx.setWidth 32 = BitVec.ofNat 32 (stringAt (bytesOf m.memory) a n).length ∧
      m'.memory = m.memory := by
  have times : m.rcx.toNat = n + 1 := by
    rw [rcx, BitVec.toNat_ofNat]
    omega
  obtain ⟨counted, same⟩ :
      (roundsUntil .scasb m.rcx.toNat { m with df := false }).rcx = m.rcx - BitVec.ofNat 64
          (min ((stringAt (bytesOf m.memory) a (n + 1)).length + 1) (n + 1)) ∧
        (roundsUntil .scasb m.rcx.toNat { m with df := false }).memory = m.memory := by
    rw [times]
    exact @scan_counts m.memory { m with df := false } a (n + 1) al rfl rdi rfl
  have short := stringAt_short (bytesOf m.memory) a n
  have back (y : BitVec 32) : (y.setWidth 64).setWidth 32 = y := by simp
  have left : (roundsUntil .scasb m.rcx.toNat { m with df := false }).rcx =
      BitVec.ofNat 64 (2 ^ 32 - 1) -
        BitVec.ofNat 64 ((stringAt (bytesOf m.memory) a n).length + 1) := by
    rw [counted, stringAt_length, rcx, wide]
  refine ⟨Line.declEcx.act (Line.notlEcx.act (roundsUntil .scasb m.rcx.toNat { m with df := false })),
    ?_, ?_, same⟩
  · apply reaches_line rfl rfl
    apply reaches_line rfl rfl
    apply reaches_line rfl rfl
    apply reaches_line rfl rfl
    exact .refl
  · simp only [Line.act, Machine.compare]
    rw [back, back, left]
    exact length_left (by omega)

theorem strlen_operands (m : Machine) (string : BitVec 64) {c : BitVec 64}
    (rcx : c = BitVec.ofNat 64 (n + 1)) (wide : n + 1 = 2 ^ 32 - 1) :
    ∃ m', Runs strlenLines { m with rcx := c, rdi := string, rax := 0 } m' ∧
      m'.rcx.setWidth 32 = BitVec.ofNat 32 (stringAt (bytesOf m.memory) string.toNat n).length ∧
      m'.memory = m.memory :=
  strlen_lines (by simp [Machine.al]) (by simp) rcx wide

end scan

/-- The listing of strlen leaves what is read off the bytes in ecx, for every memory: the length of a
    string that ends soon enough, and else -2. -/
theorem strlen_refines (m : Machine) (string : BitVec 64) : ∃ m',
    Runs strlenLines (strlen string m) m' ∧
      (m'.rcx.setWidth 32).toInt = OpenFailure.strlen (bytesOf m.memory) string.toNat ∧
      m'.memory = m.memory := by
  obtain ⟨m', runs, length, memory⟩ := @strlen_operands (2 ^ 32 - 2) m string _ rfl rfl
  refine ⟨m', runs, ?_, memory⟩
  rw [length, OpenFailure.strlen, Fat32.toInt32, BitVec.toInt_ofNat']

section copies
variable {M : Bytes} {dst : BitVec 64} {text : CString} {m : Machine} {s n : Nat}

def laid (M : Bytes) (text : CString) (dst : BitVec 64) (n : Nat) : Bytes :=
  fun a => if (a - dst).toNat < n then (chars text (a - dst).toNat).toBitVec else M a

theorem laid_nil : laid M [] dst n = filled M dst 0 n := by
  funext a
  simp [laid, filled, chars]

theorem laid_cons {c : { c : UInt8 // c ≠ 0 }} (small : n + 1 < 2 ^ 64) :
    laid (filled M dst c.1.toBitVec 1) text (dst + 1) n = laid M (c :: text) dst (n + 1) := by
  funext a
  have place := @behind_toNat dst a 1 (by decide)
  have bound : (a - dst).toNat < 2 ^ 64 := (a - dst).isLt
  have one : BitVec.ofNat 64 1 = (1 : BitVec 64) := rfl
  rw [one] at place
  simp only [laid, filled]
  by_cases first : (a - dst).toNat = 0
  · have far : ¬ (a - (dst + 1)).toNat < n := by
      rw [place, first, if_neg (by decide)]
      omega
    rw [if_neg far, if_pos (by omega), if_pos (by omega), first]
    rfl
  · obtain ⟨k, more⟩ := Nat.exists_eq_add_one_of_ne_zero first
    have beyond : ¬ k + 1 < 1 := by omega
    have low : 1 ≤ k + 1 := by omega
    simp only [place, more, low, ↓reduceIte, Nat.add_sub_cancel, Nat.add_lt_add_iff_right, beyond,
      StringCopy.chars_succ]

theorem stringAt_congr {M M' : ByteMemory.Memory} (same : ∀ i < n, M (s + i) = M' (s + i)) :
    stringAt M s n = stringAt M' s n := by
  induction n generalizing s with
  | zero => rfl
  | succ n ih =>
    have first : M s = M' s := same 0 (Nat.succ_pos n)
    have rest : stringAt M (s + 1) n = stringAt M' (s + 1) n := ih fun i inside => by
      have here := same (i + 1) (by omega)
      rwa [Nat.add_comm i 1, ← Nat.add_assoc] at here
    simp only [stringAt, first, rest]

theorem filled_ahead {byte : BitVec 8} (forward : Forward (BitVec.ofNat 64 s) dst (n + 1)) :
    ∀ i < n, bytesOf (filled M dst byte 1) (s + 1 + i) = bytesOf M (s + 1 + i) := by
  intro i inside
  obtain ⟨small, way⟩ := forward
  have apart : ¬ (BitVec.ofNat 64 (s + 1 + i) - dst).toNat < 1 := by
    rcases way with rfl | far
    · bv_omega
    · bv_omega
  simp only [bytesOf, filled, if_neg apart]

def round (m : Machine) : Machine :=
  Line.testAl.act (Op.act (Op.act (Line.decqRcx.act m) .lodsb) (.stos 1))

theorem low_byte (x : BitVec 56) (b : BitVec 8) : (x ++ b : BitVec 64).extractLsb' 0 8 = b := by
  apply BitVec.eq_of_getLsbD_eq
  intro i small
  rw [BitVec.getLsbD_extractLsb', BitVec.getLsbD_append, Nat.zero_add, if_pos small,
    decide_eq_true small, Bool.true_and]

theorem lodsb_al : (Op.lodsb.act m).al = m.memory m.rsi := by
  have same : (Op.lodsb.act m).al =
      (m.rax.extractLsb' 8 56 ++ m.memory m.rsi : BitVec 64).setWidth 8 := rfl
  rw [same]
  apply BitVec.eq_of_getLsbD_eq
  intro i small
  rw [BitVec.getLsbD_setWidth, BitVec.getLsbD_append, if_pos small, decide_eq_true small,
    Bool.true_and]

theorem round_al : (round m).al = m.memory m.rsi := lodsb_al

theorem round_memory : (round m).memory = filled m.memory m.rdi (m.memory m.rsi) 1 := by
  have same : (round m).memory =
      stored m.memory m.rdi (m.rax.extractLsb' 8 56 ++ m.memory m.rsi : BitVec 64) 1 := rfl
  rw [same]
  funext a
  simp only [stored, filled]
  split
  · next first =>
    have zero : (a - m.rdi).toNat = 0 := by omega
    rw [zero]
    exact low_byte _ _
  · rfl

theorem round_zf : (round m).zf = decide (m.memory m.rsi = 0) := by
  have same : (round m).zf = decide ((round m).al = 0) := rfl
  rw [same, round_al]

theorem round_rdi (up : m.df = false) : (round m).rdi = m.rdi + 1 := by
  have same : (round m).rdi = m.rdi + m.delta 1 := rfl
  rw [same, Machine.delta, up]
  rfl

theorem round_rsi (up : m.df = false) : (round m).rsi = m.rsi + 1 := by
  have same : (round m).rsi = m.rsi + m.delta 1 := rfl
  rw [same, Machine.delta, up]
  rfl

theorem round_uniform (found : m.memory m.rsi = 0) : Uniform 1 (round m).rax 0 := by
  intro i small
  obtain rfl : i = 0 := by omega
  have same : (round m).rax = (m.rax.extractLsb' 8 56 ++ m.memory m.rsi : BitVec 64) := rfl
  rw [same, found]
  exact low_byte _ _

theorem round_reaches {t : Nat × Machine} (more : (m.rcx - 1).msb = false)
    (rest : Reaches strncpyLines (7, round m) t) : Reaches strncpyLines (1, m) t := by
  have goes : Line.jumps (Line.decqRcx.act m) (.js (.forward 2)) = none := if_neg (by
    rw [Bool.not_eq_true]
    exact more)
  apply reaches_line rfl rfl
  apply reaches_line rfl rfl
  apply reaches_line rfl goes
  apply reaches_line rfl rfl
  apply reaches_line rfl rfl
  apply reaches_line rfl rfl
  exact rest

theorem strncpy_ends (up : m.df = false) (rcx : (round m).rcx = BitVec.ofNat 64 n)
    (small : n + 1 < 2 ^ 64) (found : m.memory m.rsi = 0) :
    ∃ m', Reaches strncpyLines (7, round m) (10, m') ∧
      m'.memory = filled m.memory m.rdi 0 (n + 1) := by
  have times : (round m).rcx.toNat = n := by
    rw [rcx, BitVec.toNat_ofNat]
    omega
  have first : Filling m.memory m.rdi (round m).operand 0 1 (round m) :=
    ⟨round_rdi up, rfl, up, found ▸ round_memory⟩
  obtain ⟨filling, -⟩ := @rounds_filling _ _ _ _ _ 1 1 n _ first (round_uniform found) le_rfl
    (by omega)
  have stays : Line.jumps (round m) (.jne (.back 1)) = none := if_pos (by
    rw [round_zf, decide_eq_true_eq]
    exact found)
  refine ⟨rounds (.stos 1) (round m).rcx.toNat (round m), ?_, ?_⟩
  · apply reaches_line rfl stays
    apply reaches_line rfl rfl
    apply reaches_line rfl rfl
    exact .refl
  · rw [times, filling.memory]
    congr 1
    omega

theorem forward_next (forward : Forward (BitVec.ofNat 64 s) dst (n + 1)) :
    Forward (BitVec.ofNat 64 (s + 1)) (dst + 1) n := by
  obtain ⟨small, way⟩ := forward
  refine ⟨by omega, ?_⟩
  rcases way with rfl | far
  · left
    rw [BitVec.ofNat_add]
    rfl
  · right
    bv_omega

theorem strncpy_loop (up : m.df = false) (rcx : m.rcx = BitVec.ofNat 64 n) (small : n < 2 ^ 63)
    (rsi : m.rsi = BitVec.ofNat 64 s) (forward : Forward (BitVec.ofNat 64 s) m.rdi n) :
    ∃ m', Reaches strncpyLines (1, m) (10, m') ∧
      m'.memory = laid m.memory (stringAt (bytesOf m.memory) s n) m.rdi n := by
  -- n is what rcx has left: a character takes one round, and the 0 ends the rounds.
  induction n generalizing m s with
  | zero =>
    have ends : Line.jumps (Line.decqRcx.act m) (.js (.forward 2)) = some (.forward 2) := if_pos (by
      show (m.rcx - 1).msb = true
      rw [rcx]
      decide)
    refine ⟨Line.decqRcx.act m, ?_, ?_⟩
    · apply reaches_line rfl rfl
      apply reaches_line rfl rfl
      apply reaches_jump rfl ends rfl
      apply reaches_line rfl rfl
      exact .refl
    · rw [stringAt, laid_nil, filled_zero]
      rfl
  | succ n ih =>
    have less : m.rcx - 1 = BitVec.ofNat 64 n := by
      rw [rcx, BitVec.ofNat_add]
      exact BitVec.add_sub_cancel _ _
    have more : (m.rcx - 1).msb = false := by
      rw [less, BitVec.msb_eq_decide, BitVec.toNat_ofNat, decide_eq_false_iff_not]
      omega
    have left : (round m).rcx = BitVec.ofNat 64 n := less
    by_cases found : m.memory m.rsi = 0
    · obtain ⟨m', reaches, memory⟩ := strncpy_ends up left (by omega) found
      refine ⟨m', round_reaches more reaches, ?_⟩
      have none : stringAt (bytesOf m.memory) s (n + 1) = [] := by
        rw [stringAt, dif_neg (not_not.mpr (bytesOf_zero.mpr (rsi ▸ found)))]
      rw [memory, none, laid_nil]
    · have solid : bytesOf m.memory s ≠ 0 := fun zero => found (rsi ▸ bytesOf_zero.mp zero)
      have goes : Line.jumps (round m) (.jne (.back 1)) = some (.back 1) := if_neg (by
        rw [round_zf, decide_eq_true_eq]
        exact found)
      have next : (round m).rsi = BitVec.ofNat 64 (s + 1) := by
        rw [round_rsi up, rsi, BitVec.ofNat_add]
        rfl
      obtain ⟨m', reaches, memory⟩ := @ih (round m) (s + 1) up left (by omega) next
        (round_rdi up ▸ forward_next forward)
      refine ⟨m', round_reaches more (reaches_jump rfl goes rfl reaches), ?_⟩
      have string : stringAt (bytesOf m.memory) s (n + 1) =
          ⟨bytesOf m.memory s, solid⟩ :: stringAt (bytesOf m.memory) (s + 1) n := by
        rw [stringAt, dif_pos solid]
      rw [memory, round_memory, round_rdi up, stringAt_congr (filled_ahead forward), string,
        ← laid_cons (by omega), rsi]
      rfl

theorem strncpy_lays (m : Machine) {dest src count : BitVec 64} (positive : count.toNat < 2 ^ 63)
    (forward : Forward src dest count.toNat) :
    ∃ m', Runs strncpyLines (strncpy dest src count m) m' ∧ m'.memory =
      laid m.memory (stringAt (bytesOf m.memory) src.toNat count.toNat) dest count.toNat := by
  have place : src = BitVec.ofNat 64 src.toNat := by simp
  obtain ⟨m', reaches, memory⟩ := @strncpy_loop { strncpy dest src count m with df := false }
    src.toNat count.toNat rfl (by simp [strncpy]) positive (by simp [strncpy]) (place ▸ forward)
  exact ⟨m', reaches_line rfl rfl reaches, memory⟩

theorem bytesOf_laid {a : Nat} (below : a < 2 ^ 64) (ends : dst.toNat + n ≤ 2 ^ 64) :
    bytesOf (laid M text dst n) a = ByteMemory.copy (chars text) 0 (bytesOf M) dst.toNat n a := by
  have inside := offset_of below ends
  simp only [bytesOf, laid, ByteMemory.copy, inside]
  split
  · next within =>
    have bound := dst.isLt
    have place : (BitVec.ofNat 64 a - dst).toNat = a - dst.toNat := by
      rw [BitVec.toNat_sub, BitVec.toNat_ofNat]
      omega
    rw [place, Nat.zero_add]
  · rfl

end copies

/-- The listing of strncpy lays down the string at the source, or as much of it as there is room for,
    and zeros behind it; nothing else changes. -/
theorem strncpy_refines (m : Machine) {dest src count : BitVec 64} (positive : count.toNat < 2 ^ 63)
    (writes : dest.toNat + count.toNat ≤ 2 ^ 64) (reads : src.toNat + count.toNat ≤ 2 ^ 64)
    (way : dest.toNat ≤ src.toNat ∨ src.toNat + count.toNat ≤ dest.toNat) :
    ∃ m', Runs strncpyLines (strncpy dest src count m) m' ∧ ∀ a < 2 ^ 64, bytesOf m'.memory a =
      ByteMemory.copy (chars (stringAt (bytesOf m.memory) src.toNat count.toNat)) 0
        (bytesOf m.memory) dest.toNat count.toNat a := by
  obtain ⟨m', runs, memory⟩ := strncpy_lays m positive (forward_of (by omega) reads way)
  refine ⟨m', runs, fun a below => ?_⟩
  rw [memory]
  exact bytesOf_laid below writes

def abText : Machine := { blank with memory := fun a =>
  if a = 0x1000 then 0x61 else if a = 0x1001 then 0x62 else if a = 0x1002 then 0 else 7 }

theorem strncpy_refines_ab : ∃ m', Runs strncpyLines (strncpy 0x2000 0x1000 8 abText) m' ∧
    ∀ a < 2 ^ 64, bytesOf m'.memory a =
      ByteMemory.copy (chars (stringAt (bytesOf abText.memory) 0x1000 8)) 0
        (bytesOf abText.memory) 0x2000 8 a :=
  strncpy_refines abText (by decide) (by decide) (by decide) (.inr (by decide))

/-- The path that sys_open, sys_execve and sys_chdir make, a cleared block with the user's string in
    it, holds the string, and the rest of the memory is as it was. -/
theorem path_copied (m : Machine) {path filename : BitVec 64} {n : Nat}
    (room : path.toNat + 4096 ≤ 2 ^ 64) (apart : filename.toNat + 4096 ≤ path.toNat)
    (short : n < 4096) : ∃ m' m'', Runs memsetLines (memset path 0 4096 m) m' ∧
      Runs strncpyLines (strncpy path filename (BitVec.ofNat 64 n) m') m'' ∧
      StringCopy.Holds (bytesOf m''.memory) path.toNat
        (stringAt (bytesOf m.memory) filename.toNat n) ∧
      ∀ a < 2 ^ 64, a < path.toNat ∨ path.toNat + 4096 ≤ a →
        bytesOf m''.memory a = bytesOf m.memory a := by
  have size : (BitVec.ofNat 64 n).toNat = n := by
    rw [BitVec.toNat_ofNat]
    omega
  obtain ⟨m', cleared, zeros⟩ := @memset_fills m path 4096 0 (by decide)
  obtain ⟨m'', copied, memory⟩ := @strncpy_lays m' path filename (BitVec.ofNat 64 n) (by omega)
    (forward_of (by omega) (by omega) (.inr (by omega)))
  rw [size] at memory
  have before : ∀ a < 2 ^ 64, bytesOf m'.memory a =
      ByteMemory.fill (bytesOf m.memory) path.toNat 4096 0 a := fun a below => by
    rw [zeros]
    exact bytesOf_filled m.memory 0 below room
  have string : stringAt (bytesOf m'.memory) filename.toNat n =
      stringAt (bytesOf m.memory) filename.toNat n := stringAt_congr fun i inside => by
    rw [before _ (by omega), ByteMemory.fill, if_neg (by omega)]
  have after : ∀ a < 2 ^ 64, bytesOf m''.memory a = ByteMemory.copy
      (chars (stringAt (bytesOf m.memory) filename.toNat n)) 0 (bytesOf m'.memory) path.toNat n a :=
    fun a below => by
      rw [memory, string]
      exact bytesOf_laid below (by omega)
  refine ⟨m', m'', cleared, copied, fun i inside => ?_, fun a below outside => ?_⟩
  · have length := stringAt_short (bytesOf m.memory) filename.toNat n
    rw [after _ (by omega), ByteMemory.copy]
    by_cases within : i < n
    · rw [if_pos (by omega), Nat.zero_add, Nat.add_sub_cancel_left]
    · obtain rfl : i = (stringAt (bytesOf m.memory) filename.toNat n).length := by omega
      rw [if_neg (by omega), before _ (by omega), ByteMemory.fill, if_pos (by omega),
        StringCopy.chars_end]
  · rw [after a below, ByteMemory.copy, if_neg (by omega), before a below, ByteMemory.fill,
      if_neg (by omega)]

theorem path_copied_ab : ∃ m' m'', Runs memsetLines (memset 0x2000 0 4096 abText) m' ∧
    Runs strncpyLines (strncpy 0x2000 0x1000 (BitVec.ofNat 64 2) m') m'' ∧
    StringCopy.Holds (bytesOf m''.memory) 0x2000 (stringAt (bytesOf abText.memory) 0x1000 2) ∧
    ∀ a < 2 ^ 64, a < 0x2000 ∨ 0x2000 + 4096 ≤ a →
      bytesOf m''.memory a = bytesOf abText.memory a :=
  @path_copied abText 0x2000 0x1000 2 (by decide) (by decide) (by decide)

def strcmpLines : List Line :=
  [.cld,
    .label 1,
    .op .lodsb,
    .op .scasb,
    .jne (.forward 2),
    .testAl,
    .jne (.back 1),
    .xorlEax,
    .jmp (.forward 3),
    .label 2,
    .movlEax 1,
    .jl (.forward 3),
    .neglEax,
    .label 3]

def strcmp (first second : BitVec 64) (m : Machine) : Machine := { m with rdi := first, rsi := second }

/- Strings compared character by character, as signed bytes. -/
def compareText : CString → CString → Int
  | [], [] => 0
  | [], d :: _ => if d.1.toInt8.toInt < 0 then 1 else -1
  | c :: _, [] => if 0 < c.1.toInt8.toInt then 1 else -1
  | c :: text, d :: other =>
    if c = d then compareText text other
    else if d.1.toInt8.toInt < c.1.toInt8.toInt then 1 else -1

theorem compareText_zero (text other : CString) : compareText text other = 0 ↔ text = other := by
  induction text generalizing other with
  | nil =>
    cases other with
    | nil => simp [compareText]
    | cons d other =>
      simp only [compareText]
      split <;> simp
  | cons c text ih =>
    cases other with
    | nil =>
      simp only [compareText]
      split <;> simp
    | cons d other =>
      simp only [compareText, List.cons.injEq]
      by_cases same : c = d
      · simp [same, ih]
      · simp only [same, ↓reduceIte, false_and, iff_false]
        split <;> simp

section comparison
variable {M : Bytes} {m : Machine} {p q : Nat} {text other : CString}

theorem less_flags (x y : BitVec 8) : (x - y).msb = x.ssubOverflow y ↔ ¬ x.toInt < y.toInt := by
  have low := BitVec.le_toInt x
  have high := BitVec.toInt_lt (x := x)
  have low' := BitVec.le_toInt y
  have high' := BitVec.toInt_lt (x := y)
  simp only [Nat.reduceSub, Int.reducePow, Int.reduceNeg] at low high low' high'
  rw [Bool.eq_iff_iff, BitVec.msb_eq_toInt, decide_eq_true_eq, BitVec.toInt_sub, Int.bmod_def]
  simp only [BitVec.ssubOverflow, Bool.or_eq_true, decide_eq_true_eq, ge_iff_le, Nat.reduceSub,
    Int.reducePow, Int.reduceNeg, Nat.reducePow]
  split <;> omega

def paired (m : Machine) : Machine := Op.scasb.act (Op.lodsb.act m)

theorem paired_zf : (paired m).zf = decide (m.memory m.rsi = m.memory m.rdi) := by
  have same : (paired m).zf = decide ((Op.lodsb.act m).al - m.memory m.rdi = 0) := rfl
  rw [same, lodsb_al]
  have difference : m.memory m.rsi - m.memory m.rdi = 0 ↔ m.memory m.rsi = m.memory m.rdi :=
    ⟨fun zero => by bv_omega, fun equal => by rw [equal, BitVec.sub_self]; rfl⟩
  simp only [difference]

theorem paired_less : (paired m).sf = (paired m).of ↔
    ¬ (m.memory m.rsi).toInt < (m.memory m.rdi).toInt := by
  have sign : (paired m).sf = ((Op.lodsb.act m).al - m.memory m.rdi).msb := rfl
  have overflow : (paired m).of = (Op.lodsb.act m).al.ssubOverflow (m.memory m.rdi) := rfl
  rw [sign, overflow, lodsb_al]
  exact less_flags _ _

theorem strcmp_differs (differ : m.memory m.rsi ≠ m.memory m.rdi) :
    ∃ m', Reaches strcmpLines (1, m) (14, m') ∧ m'.memory = m.memory ∧
      (m'.rax.setWidth 32).toInt =
        if (m.memory m.rsi).toInt < (m.memory m.rdi).toInt then 1 else -1 := by
  have goes : Line.jumps (paired m) (.jne (.forward 2)) = some (.forward 2) := if_neg (by
    rw [paired_zf, decide_eq_true_eq]
    exact differ)
  have enters : ∀ t, Reaches strcmpLines (11, Line.act (paired m) (.movlEax 1)) t →
      Reaches strcmpLines (1, m) t := fun t rest => by
    apply reaches_line rfl rfl
    apply reaches_line rfl rfl
    apply reaches_line rfl rfl
    apply reaches_jump rfl goes rfl
    apply reaches_line rfl rfl
    exact reaches_line rfl rfl rest
  by_cases less : (m.memory m.rsi).toInt < (m.memory m.rdi).toInt
  · have jumps : Line.jumps (Line.act (paired m) (.movlEax 1)) (.jl (.forward 3)) =
        some (.forward 3) := if_neg fun same => paired_less.mp same less
    refine ⟨Line.act (paired m) (.movlEax 1), enters _ ?_, rfl, ?_⟩
    · apply reaches_jump rfl jumps rfl
      apply reaches_line rfl rfl
      exact .refl
    · rw [if_pos less]
      rfl
  · have stays : Line.jumps (Line.act (paired m) (.movlEax 1)) (.jl (.forward 3)) = none :=
      if_pos (paired_less.mpr less)
    refine ⟨Line.neglEax.act (Line.act (paired m) (.movlEax 1)), enters _ ?_, rfl, ?_⟩
    · apply reaches_line rfl stays
      apply reaches_line rfl rfl
      apply reaches_line rfl rfl
      exact .refl
    · rw [if_neg less]
      rfl

theorem same_reaches {t : Nat × Machine} (same : m.memory m.rsi = m.memory m.rdi)
    (rest : Reaches strcmpLines (6, Line.testAl.act (paired m)) t) :
    Reaches strcmpLines (1, m) t := by
  have stays : Line.jumps (paired m) (.jne (.forward 2)) = none := if_pos (by
    rw [paired_zf, decide_eq_true_eq]
    exact same)
  apply reaches_line rfl rfl
  apply reaches_line rfl rfl
  apply reaches_line rfl rfl
  apply reaches_line rfl stays
  exact reaches_line rfl rfl rest

theorem tested_zf : (Line.testAl.act (paired m)).zf = decide (m.memory m.rsi = 0) := by
  have same : (Line.testAl.act (paired m)).zf = decide ((Op.lodsb.act m).al = 0) := rfl
  rw [same, lodsb_al]

theorem strcmp_ends (same : m.memory m.rsi = m.memory m.rdi) (zero : m.memory m.rsi = 0) :
    ∃ m', Reaches strcmpLines (1, m) (14, m') ∧ m'.memory = m.memory ∧
      (m'.rax.setWidth 32).toInt = 0 := by
  have stays : Line.jumps (Line.testAl.act (paired m)) (.jne (.back 1)) = none := if_pos (by
    rw [tested_zf, decide_eq_true_eq]
    exact zero)
  refine ⟨Line.xorlEax.act (Line.testAl.act (paired m)), same_reaches same ?_, rfl, rfl⟩
  apply reaches_line rfl stays
  apply reaches_line rfl rfl
  apply reaches_jump rfl rfl rfl
  apply reaches_line rfl rfl
  exact .refl

theorem byte_of {c : UInt8} (there : bytesOf M p = c) : M (BitVec.ofNat 64 p) = c.toBitVec :=
  congrArg UInt8.toBitVec there

theorem strcmp_loop (up : m.df = false) (rdi : m.rdi = BitVec.ofNat 64 p)
    (rsi : m.rsi = BitVec.ofNat 64 q) (holds : StringCopy.Holds (bytesOf m.memory) p text)
    (also : StringCopy.Holds (bytesOf m.memory) q other) :
    ∃ m', Reaches strcmpLines (1, m) (14, m') ∧ m'.memory = m.memory ∧
      (m'.rax.setWidth 32).toInt = compareText text other := by
  -- The 0 behind the shorter string is a character that differs, so only two ends give 0.
  induction text generalizing m p q other with
  | nil =>
    have first : m.memory m.rdi = 0 := rdi ▸ byte_of (StringCopy.holds_nil.mp holds)
    cases other with
    | nil =>
      have second : m.memory m.rsi = 0 := rsi ▸ byte_of (StringCopy.holds_nil.mp also)
      exact strcmp_ends (second.trans first.symm) second
    | cons d other =>
      have second : m.memory m.rsi = d.1.toBitVec :=
        rsi ▸ byte_of (StringCopy.holds_cons.mp also).1
      have differ : m.memory m.rsi ≠ m.memory m.rdi := fun same =>
        d.2 (UInt8.toBitVec_inj.mp (second.symm.trans (same.trans first)))
      obtain ⟨m', reaches, memory, result⟩ := strcmp_differs differ
      rw [first, second] at result
      exact ⟨m', reaches, memory, result⟩
  | cons c text ih =>
    obtain ⟨here, rest⟩ := StringCopy.holds_cons.mp holds
    have first : m.memory m.rdi = c.1.toBitVec := rdi ▸ byte_of here
    cases other with
    | nil =>
      have second : m.memory m.rsi = 0 := rsi ▸ byte_of (StringCopy.holds_nil.mp also)
      have differ : m.memory m.rsi ≠ m.memory m.rdi := fun same =>
        c.2 (UInt8.toBitVec_inj.mp (first.symm.trans (same.symm.trans second)))
      obtain ⟨m', reaches, memory, result⟩ := strcmp_differs differ
      rw [first, second] at result
      exact ⟨m', reaches, memory, result⟩
    | cons d other =>
      obtain ⟨here', rest'⟩ := StringCopy.holds_cons.mp also
      have second : m.memory m.rsi = d.1.toBitVec := rsi ▸ byte_of here'
      by_cases equal : c = d
      · subst equal
        have solid : m.memory m.rsi ≠ 0 := fun zero =>
          c.2 (UInt8.toBitVec_inj.mp (second.symm.trans zero))
        have jumps : Line.jumps (Line.testAl.act (paired m)) (.jne (.back 1)) = some (.back 1) :=
          if_neg (by
            rw [tested_zf, decide_eq_true_eq]
            exact solid)
        have one : m.delta 1 = BitVec.ofNat 64 1 := by rw [Machine.delta, up]; rfl
        obtain ⟨m', reaches, memory, result⟩ := @ih (Line.testAl.act (paired m)) (p + 1) (q + 1)
          other up (by rw [BitVec.ofNat_add, ← rdi, ← one]; rfl)
          (by rw [BitVec.ofNat_add, ← rsi, ← one]; rfl) rest rest'
        refine ⟨m', same_reaches (second.trans first.symm) (reaches_jump rfl jumps rfl reaches),
          memory, ?_⟩
        rw [result, compareText, if_pos rfl]
      · have differ : m.memory m.rsi ≠ m.memory m.rdi := fun same =>
          equal (Subtype.ext (UInt8.toBitVec_inj.mp (first.symm.trans (same.symm.trans second))))
        obtain ⟨m', reaches, memory, result⟩ := strcmp_differs differ
        rw [first, second] at result
        refine ⟨m', reaches, memory, ?_⟩
        rw [compareText, if_neg equal]
        exact result

/-- The listing of strcmp ends on any two strings and leaves in eax how they compare, character by
    character as signed bytes; 0 for the same string only. -/
theorem strcmp_refines (m : Machine) {first second : BitVec 64} {text other : CString}
    (holds : StringCopy.Holds (bytesOf m.memory) first.toNat text)
    (also : StringCopy.Holds (bytesOf m.memory) second.toNat other) :
    ∃ m', Runs strcmpLines (strcmp first second m) m' ∧ m'.memory = m.memory ∧
      (m'.rax.setWidth 32).toInt = compareText text other ∧
      ((m'.rax.setWidth 32).toInt = 0 ↔ text = other) := by
  obtain ⟨m', reaches, memory, result⟩ := @strcmp_loop { strcmp first second m with df := false }
    first.toNat second.toNat text other rfl (by simp [strcmp]) (by simp [strcmp]) holds also
  exact ⟨m', reaches_line rfl rfl reaches, memory, result, result ▸ compareText_zero text other⟩

theorem strcmp_refines_ab : ∃ m', Runs strcmpLines (strcmp 0x1000 0x1001 abText) m' ∧
    m'.memory = abText.memory ∧
    (m'.rax.setWidth 32).toInt =
      compareText [⟨0x61, by decide⟩, ⟨0x62, by decide⟩] [⟨0x62, by decide⟩] ∧
    ((m'.rax.setWidth 32).toInt = 0 ↔
      ([⟨0x61, by decide⟩, ⟨0x62, by decide⟩] : CString) = [⟨0x62, by decide⟩]) := by
  have second : StringCopy.Holds (bytesOf abText.memory) 0x1001 [⟨0x62, by decide⟩] :=
    StringCopy.holds_cons.mpr ⟨by decide, StringCopy.holds_nil.mpr (by decide)⟩
  exact strcmp_refines abText (StringCopy.holds_cons.mpr ⟨by decide, second⟩) second

end comparison

end StringListings

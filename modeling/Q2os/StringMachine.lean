import Mathlib.Algebra.Group.Nat.Defs
import Mathlib.Logic.Relation

/- Listings of string instructions: a machine with the registers, flags and bytes that they use, and
   lines with local labels. -/
namespace StringMachine

abbrev Bytes := BitVec 64 → BitVec 8

/- operand is the register that the compiler picks for a value that is only read; df has string
   instructions go downwards. -/
structure Machine where
  rax : BitVec 64
  rcx : BitVec 64
  rsi : BitVec 64
  rdi : BitVec 64
  operand : BitVec 64
  zf : Bool
  sf : Bool
  of : Bool
  df : Bool
  memory : Bytes

inductive Op where
  | movs (size : Nat)
  | stos (size : Nat)
  | lodsb
  | scasb

/- The next label of a number behind a line, or the last one before it. -/
inductive Target where
  | forward (n : Nat)
  | back (n : Nat)

inductive Line where
  | op (o : Op)
  | rep (o : Op)
  | repne (o : Op)
  | cld
  | label (n : Nat)
  | je (t : Target)
  | jne (t : Target)
  | js (t : Target)
  | jl (t : Target)
  | jmp (t : Target)
  | testb (mask : BitVec 8)
  | testAl
  | movqRcx
  | decqRcx
  | movlEax (value : BitVec 32)
  | neglEax
  | xorlEax
  | notlEcx
  | declEcx

def Machine.delta (m : Machine) (size : Nat) : BitVec 64 :=
  if m.df then -BitVec.ofNat 64 size else BitVec.ofNat 64 size

def Machine.al (m : Machine) : BitVec 8 := m.rax.setWidth 8

def Machine.result {w : Nat} (x : BitVec w) (m : Machine) : Machine :=
  { m with zf := x = 0, sf := x.msb, of := false }

def Machine.compare {w : Nat} (x y : BitVec w) (m : Machine) : Machine :=
  { m with zf := x - y = 0, sf := (x - y).msb, of := x.ssubOverflow y }

def Machine.test (mask : BitVec 8) (m : Machine) : Machine := m.result (m.operand.setWidth 8 &&& mask)

/- A block of bytes copied, all of it read before it is written. -/
def copied (memory : Bytes) (src dst : BitVec 64) (size : Nat) : Bytes :=
  fun a => if (a - dst).toNat < size then memory (src + (a - dst)) else memory a

def stored (memory : Bytes) (dst value : BitVec 64) (size : Nat) : Bytes :=
  fun a => if (a - dst).toNat < size then value.extractLsb' (8 * (a - dst).toNat) 8 else memory a

def Op.act (m : Machine) : Op → Machine
  | .movs size => { m with
      memory := copied m.memory m.rsi m.rdi size
      rsi := m.rsi + m.delta size
      rdi := m.rdi + m.delta size }
  | .stos size => { m with
      memory := stored m.memory m.rdi m.rax size
      rdi := m.rdi + m.delta size }
  | .lodsb => { m with
      rax := (m.rax.extractLsb' 8 56 ++ m.memory m.rsi : BitVec 64)
      rsi := m.rsi + m.delta 1 }
  | .scasb => { m.compare m.al (m.memory m.rdi) with rdi := m.rdi + m.delta 1 }

/- A repeated instruction, as often as rcx says. -/
def rounds (o : Op) : Nat → Machine → Machine
  | 0, m => m
  | n + 1, m => rounds o n { o.act m with rcx := m.rcx - 1 }

def roundsUntil (o : Op) : Nat → Machine → Machine
  | 0, m => m
  | n + 1, m =>
    let m := { o.act m with rcx := m.rcx - 1 }
    if m.zf then m else roundsUntil o n m

def Line.act (m : Machine) : Line → Machine
  | .op o => o.act m
  | .rep o => rounds o m.rcx.toNat m
  | .repne o => roundsUntil o m.rcx.toNat m
  | .cld => { m with df := false }
  | .testb mask => m.test mask
  | .testAl => m.result m.al
  | .movqRcx => { m with rcx := m.operand }
  | .decqRcx => { m.compare m.rcx 1 with rcx := m.rcx - 1 }
  | .notlEcx => { m with rcx := (~~~m.rcx.setWidth 32 : BitVec 32).setWidth 64 }
  | .declEcx =>
    let ecx : BitVec 32 := m.rcx.setWidth 32
    { m.compare ecx 1 with rcx := (ecx - 1).setWidth 64 }
  | .movlEax value => { m with rax := value.setWidth 64 }
  | .neglEax =>
    let eax : BitVec 32 := m.rax.setWidth 32
    { m.compare 0 eax with rax := (-eax).setWidth 64 }
  | .xorlEax => { m.result (0 : BitVec 32) with rax := 0 }
  | .label _ | .je _ | .jne _ | .js _ | .jl _ | .jmp _ => m

def Line.jumps (m : Machine) : Line → Option Target
  | .je t => if m.zf then some t else none
  | .jne t => if m.zf then none else some t
  | .js t => if m.sf then some t else none
  | .jl t => if m.sf = m.of then none else some t
  | .jmp t => some t
  | _ => none

def Line.isLabel (n : Nat) : Line → Bool
  | .label k => k == n
  | _ => false

def resolve (code : List Line) (pc : Nat) : Target → Option Nat
  | .forward n => ((code.drop pc).findIdx? (·.isLabel n)).map (pc + ·)
  | .back n => ((code.take pc).reverse.findIdx? (·.isLabel n)).map (pc - 1 - ·)

/- One line of a listing, none at its end. -/
def next (code : List Line) (s : Nat × Machine) : Option (Nat × Machine) :=
  code[s.1]?.bind fun line =>
    match line.jumps s.2 with
    | some target => (resolve code s.1 target).map (·, s.2)
    | none => some (s.1 + 1, line.act s.2)

abbrev Reaches (code : List Line) : Nat × Machine → Nat × Machine → Prop :=
  Relation.ReflTransGen fun s t => next code s = some t

def Runs (code : List Line) (m m' : Machine) : Prop := Reaches code (0, m) (code.length, m')

section addresses
variable {src dst a : BitVec 64} {n k i : Nat}

theorem add_ofNat (p : BitVec 64) (n k : Nat) :
    p + BitVec.ofNat 64 n + BitVec.ofNat 64 k = p + BitVec.ofNat 64 (n + k) := by
  rw [BitVec.add_assoc, BitVec.ofNat_add]

/- A copy from the lowest byte up reads nothing that it has written. -/
def Forward (src dst : BitVec 64) (n : Nat) : Prop := n < 2 ^ 64 ∧ (dst = src ∨ n ≤ (dst - src).toNat)

theorem forward_less (forward : Forward src dst n) (less : k ≤ n) : Forward src dst k :=
  ⟨by have := forward.1; omega, forward.2.imp_right (Nat.le_trans less)⟩

theorem offset_toNat (p : BitVec 64) (small : i < 2 ^ 64) :
    (p + BitVec.ofNat 64 i - p).toNat = i := by
  have same : p + BitVec.ofNat 64 i - p = BitVec.ofNat 64 i := by
    rw [BitVec.add_comm, BitVec.add_sub_cancel]
  rw [same, BitVec.toNat_ofNat, Nat.mod_eq_of_lt small]

theorem behind_toNat (small : n < 2 ^ 64) : (a - (dst + BitVec.ofNat 64 n)).toNat =
    if n ≤ (a - dst).toNat then (a - dst).toNat - n else 2 ^ 64 + (a - dst).toNat - n := by
  have split : a - (dst + BitVec.ofNat 64 n) = a - dst - BitVec.ofNat 64 n := by bv_omega
  have bound : (a - dst).toNat < 2 ^ 64 := (a - dst).isLt
  rw [split, BitVec.toNat_sub, BitVec.toNat_ofNat, Nat.mod_eq_of_lt small]
  split <;> omega

theorem copied_ahead (memory : Bytes) (forward : Forward src dst k) (low : n ≤ i) (high : i < k) :
    copied memory src dst n (src + BitVec.ofNat 64 i) = memory (src + BitVec.ofNat 64 i) := by
  obtain ⟨small, way⟩ := forward
  have outside : ¬ (src + BitVec.ofNat 64 i - dst).toNat < n := by
    rcases way with rfl | far
    · rw [offset_toNat _ (by omega)]
      omega
    · bv_omega
  rw [copied, if_neg outside]

theorem copied_copied (memory : Bytes) (forward : Forward src dst (n + k)) :
    copied (copied memory src dst n) (src + BitVec.ofNat 64 n) (dst + BitVec.ofNat 64 n) k =
      copied memory src dst (n + k) := by
  have small := forward.1
  funext a
  have place := @behind_toNat dst a n (by omega)
  have bound : (a - dst).toNat < 2 ^ 64 := (a - dst).isLt
  by_cases second : n ≤ (a - dst).toNat ∧ (a - dst).toNat < n + k
  · have inside : (a - (dst + BitVec.ofNat 64 n)).toNat < k := by
      rw [place, if_pos second.1]
      omega
    have same : src + BitVec.ofNat 64 n + (a - (dst + BitVec.ofNat 64 n)) =
        src + BitVec.ofNat 64 (a - dst).toNat := by bv_omega
    rw [copied, if_pos inside, same, copied_ahead memory forward second.1 second.2, copied,
      if_pos second.2, BitVec.ofNat_toNat, BitVec.setWidth_eq]
  · have outside : ¬ (a - (dst + BitVec.ofNat 64 n)).toNat < k := by
      rw [place]
      split <;> omega
    rw [copied, if_neg outside, copied, copied]
    by_cases first : (a - dst).toNat < n
    · rw [if_pos first, if_pos (by omega)]
    · rw [if_neg first, if_neg (by omega)]

def filled (memory : Bytes) (dst : BitVec 64) (byte : BitVec 8) (size : Nat) : Bytes :=
  fun a => if (a - dst).toNat < size then byte else memory a

theorem filled_filled (memory : Bytes) (byte : BitVec 8) (small : n + k < 2 ^ 64) :
    filled (filled memory dst byte n) (dst + BitVec.ofNat 64 n) byte k =
      filled memory dst byte (n + k) := by
  funext a
  have place := @behind_toNat dst a n (by omega)
  have bound : (a - dst).toNat < 2 ^ 64 := (a - dst).isLt
  by_cases first : (a - dst).toNat < n
  · rw [if_neg (Nat.not_le.mpr first)] at place
    have outside : ¬ (a - (dst + BitVec.ofNat 64 n)).toNat < k := by omega
    rw [filled, if_neg outside, filled, if_pos first, filled, if_pos (by omega)]
  · rw [if_pos (Nat.not_lt.mp first)] at place
    have same : (a - (dst + BitVec.ofNat 64 n)).toNat < k ↔ (a - dst).toNat < n + k := by omega
    simp only [filled, same, first, ↓reduceIte]

end addresses

@[simp] theorem copied_zero (memory : Bytes) (src dst : BitVec 64) :
    copied memory src dst 0 = memory := by
  funext a
  simp [copied]

@[simp] theorem filled_zero (memory : Bytes) (dst : BitVec 64) (byte : BitVec 8) :
    filled memory dst byte 0 = memory := by
  funext a
  simp [filled]

structure Copying (memory : Bytes) (src dst operand : BitVec 64) (n : Nat) (m : Machine) :
    Prop where
  rsi : m.rsi = src + BitVec.ofNat 64 n
  rdi : m.rdi = dst + BitVec.ofNat 64 n
  operand : m.operand = operand
  df : m.df = false
  memory : m.memory = copied memory src dst n

structure Filling (memory : Bytes) (dst operand : BitVec 64) (byte : BitVec 8) (n : Nat)
    (m : Machine) : Prop where
  rdi : m.rdi = dst + BitVec.ofNat 64 n
  operand : m.operand = operand
  df : m.df = false
  memory : m.memory = filled memory dst byte n

section blocks
variable {M : Bytes} {src dst w : BitVec 64} {byte : BitVec 8} {n size width count total : Nat}
  {m : Machine}

theorem movs_copying (copying : Copying M src dst w n m) (forward : Forward src dst total)
    (more : n + size ≤ total) : Copying M src dst w (n + size) ((Op.movs size).act m) where
  rsi := by simp [Op.act, Machine.delta, copying.df, copying.rsi, add_ofNat]
  rdi := by simp [Op.act, Machine.delta, copying.df, copying.rdi, add_ofNat]
  operand := copying.operand
  df := copying.df
  memory := by
    simp only [Op.act, copying.rsi, copying.rdi, copying.memory]
    exact copied_copied M (forward_less forward more)

theorem rounds_copying (copying : Copying M src dst w n m) (forward : Forward src dst total)
    (more : n + size * count ≤ total) :
    Copying M src dst w (n + size * count) (rounds (.movs size) count m) := by
  induction count generalizing n m with
  | zero => exact copying
  | succ count ih =>
    rw [Nat.mul_succ] at more
    have first : Copying M src dst w (n + size) ((Op.movs size).act m) :=
      movs_copying copying forward (by omega)
    have whole : n + size * (count + 1) = n + size + size * count := by
      rw [Nat.mul_succ]
      omega
    rw [whole]
    exact ih (m := { (Op.movs size).act m with rcx := m.rcx - 1 })
      ⟨first.rsi, first.rdi, first.operand, first.df, first.memory⟩ (by omega)

def Uniform (width : Nat) (value : BitVec 64) (byte : BitVec 8) : Prop :=
  ∀ i < width, value.extractLsb' (8 * i) 8 = byte

theorem stos_filling (filling : Filling M dst w byte n m) (uniform : Uniform width m.rax byte)
    (small : size ≤ width) (bound : n + size < 2 ^ 64) :
    Filling M dst w byte (n + size) ((Op.stos size).act m) where
  rdi := by simp [Op.act, Machine.delta, filling.df, filling.rdi, add_ofNat]
  operand := filling.operand
  df := filling.df
  memory := by
    have same : stored m.memory m.rdi m.rax size = filled m.memory m.rdi byte size := by
      funext a
      simp only [stored, filled]
      split
      · exact uniform _ (by omega)
      · rfl
    have after : ((Op.stos size).act m).memory = stored m.memory m.rdi m.rax size := rfl
    rw [after, same, filling.rdi, filling.memory]
    exact filled_filled M byte bound

theorem rounds_filling (filling : Filling M dst w byte n m) (uniform : Uniform width m.rax byte)
    (small : size ≤ width) (bound : n + size * count < 2 ^ 64) :
    Filling M dst w byte (n + size * count) (rounds (.stos size) count m) ∧
      Uniform width (rounds (.stos size) count m).rax byte := by
  induction count generalizing n m with
  | zero => exact ⟨filling, uniform⟩
  | succ count ih =>
    rw [Nat.mul_succ] at bound
    have first := stos_filling filling uniform small (by omega)
    have whole : n + size * (count + 1) = n + size + size * count := by
      rw [Nat.mul_succ]
      omega
    rw [whole]
    exact ih (m := { (Op.stos size).act m with rcx := m.rcx - 1 })
      ⟨first.rdi, first.operand, first.df, first.memory⟩ uniform (by omega)

end blocks

section listings
variable {code : List Line} {pc : Nat} {m : Machine} {line : Line} {t : Nat × Machine}

theorem reaches_line (there : code[pc]? = some line) (straight : line.jumps m = none)
    (rest : Reaches code (pc + 1, line.act m) t) : Reaches code (pc, m) t :=
  .head (by simp [next, there, straight]) rest

theorem reaches_jump {target : Target} {place : Nat} (there : code[pc]? = some line)
    (jumps : line.jumps m = some target) (found : resolve code pc target = some place)
    (rest : Reaches code (place, m) t) : Reaches code (pc, m) t :=
  .head (by simp [next, there, jumps, found]) rest

/- testb, je, an instruction and the label behind it: the instruction is taken where the bit is
   set. -/
def skipping (mask : BitVec 8) (o : Op) (m : Machine) : Machine :=
  if m.operand.setWidth 8 &&& mask = 0 then m.test mask else o.act (m.test mask)

theorem reaches_optional {mask : BitVec 8} {o : Op} {label : Nat}
    (test : code[pc]? = some (.testb mask)) (skip : code[pc + 1]? = some (.je (.forward label)))
    (there : code[pc + 2]? = some (.op o)) (ends : code[pc + 3]? = some (.label label))
    (found : resolve code (pc + 1) (.forward label) = some (pc + 3))
    (rest : Reaches code (pc + 4, skipping mask o m) t) : Reaches code (pc, m) t := by
  apply reaches_line test rfl
  rw [skipping] at rest
  by_cases clear : m.operand.setWidth 8 &&& mask = 0
  · rw [if_pos clear] at rest
    refine reaches_jump skip ?_ found (reaches_line ends rfl rest)
    simp [Line.jumps, Line.act, Machine.test, Machine.result, clear]
  · rw [if_neg clear] at rest
    refine reaches_line skip ?_ (reaches_line there rfl (reaches_line ends rfl rest))
    simpa [Line.jumps, Line.act, Machine.test, Machine.result] using clear

theorem runs_unique {m' m'' : Machine} (first : Runs code m m') (second : Runs code m m'') :
    m' = m'' := by
  have last : ∀ s : Nat × Machine, ∀ n, s = (code.length, n) → ∀ t, next code s ≠ some t := by
    rintro s n rfl t
    simp [next]
  have same : ∀ s u v, Reaches code s u → Reaches code s v → (∀ t, next code u ≠ some t) →
      (∀ t, next code v ≠ some t) → u = v := by
    intro s u v one
    induction one using Relation.ReflTransGen.head_induction_on with
    | refl =>
      intro other stop _
      cases other.cases_head with
      | inl here => exact here
      | inr more =>
        obtain ⟨t, step, _⟩ := more
        exact absurd step (stop t)
    | head step _ ih =>
      intro other stop stop'
      cases other.cases_head with
      | inl here => exact absurd (here ▸ step) (stop' _)
      | inr more =>
        obtain ⟨t, step', rest⟩ := more
        obtain rfl := Option.some.inj (step.symm.trans step')
        exact ih rest stop stop'
  exact (Prod.mk.inj (same _ _ _ first second (last _ _ rfl) (last _ _ rfl))).2

end listings

end StringMachine

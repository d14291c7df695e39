import Q2os.BitFields
import Q2os.TableEntries

/- The 16-byte descriptors of gate.h and of setup_TSS64: what the processor reads in them, and
   the words the code puts together by shifts, masks and sums. -/
namespace GateDescriptors
open ByteMemory Fat32 BitFields

def load (m : Memory) (a : Nat) : BitVec 64 := BitVec.ofNat 64 (getLittle m a 8)

def store (m : Memory) (a : Nat) (r : BitVec 64) : Memory := setLittle m a r.toNat 8

def movq (src _dst : BitVec 64) : BitVec 64 := src

/- A word leaves the rest of its target, a double word clears the upper half of it. -/
def movw (src dst : BitVec 64) : BitVec 64 := dst.extractLsb' 16 48 ++ src.setWidth 16

def movl (src _dst : BitVec 64) : BitVec 64 := (src.setWidth 32).setWidth 64

def shrl (count : Nat) (dst : BitVec 64) : BitVec 64 := (dst.setWidth 32 >>> count).setWidth 64

def andl (imm : BitVec 32) (dst : BitVec 64) : BitVec 64 := (dst.setWidth 32 &&& imm).setWidth 64

/- _set_gate with its operands: the immediate attr << 8 is sign-extended, and the bits of rcx
   over the byte of ist are as the compiler left them. -/
def setGate (m : Memory) (gateSelectorAddr : Nat) (attr ist : BitVec 8) (upper : BitVec 56)
    (codeAddr : BitVec 64) : Memory :=
  let rdx := codeAddr
  let rax := 0x8#64 <<< 16
  let rcx : BitVec 64 := upper ++ ist
  let rax := movw rdx rax
  let rcx := rcx &&& 0x7#64
  let rcx := rcx + (attr.setWidth 32 <<< 8).signExtend 64
  let rcx := rcx <<< 32
  let rax := rax + rcx
  let rcx := rcx ^^^ rcx
  let rcx := movl rdx rcx
  let rcx := rcx >>> 16
  let rcx := rcx <<< 48
  let rax := rax + rcx
  let m := store m gateSelectorAddr rax
  let rdx := rdx >>> 32
  store m (gateSelectorAddr + 8) rdx

/- GDT_Table + n counts descriptors of eight bytes. -/
def setTssDescriptor (m : Memory) (gdtTable : Nat) (n : BitVec 32) (addr : BitVec 64) : Memory :=
  let limit := 103#64
  let m := store m (gdtTable + 8 * n.toNat)
    ((limit &&& 0xffff#64) ||| ((addr &&& 0xffff#64) <<< 16) |||
      ((addr >>> 16 &&& 0xff#64) <<< 32) ||| (0x89#64 <<< 40) |||
      ((limit >>> 16 &&& 0xf#64) <<< 48) |||
      ((addr >>> 24 &&& 0xff#64) <<< 56))
  store m (gdtTable + 8 * n.toNat + 8) ((addr >>> 32 &&& 0xffffffff#64) ||| 0#64)

/- setup_TSS64 from the address of init_tss on; rax and rcx are as setup_IDT left them. -/
def setupTSS64 (m : Memory) (gdtTable : Nat) (initTss rax rcx : BitVec 64) : Memory :=
  let rdx := initTss
  let rax := rax ^^^ rax
  let rcx := rcx ^^^ rcx
  let rax := movq 0x89#64 rax
  let rax := rax <<< 40
  let rcx := movl rdx rcx
  let rcx := shrl 24 rcx
  let rcx := rcx <<< 56
  let rax := rax + rcx
  let rcx := rcx ^^^ rcx
  let rcx := movl rdx rcx
  let rcx := andl 0xffffff#32 rcx
  let rcx := rcx <<< 16
  let rax := rax + rcx
  let rax := rax + 103#64
  let rdi := gdtTable
  let m := store m (rdi + 80) rax
  let rdx := rdx >>> 32
  store m (rdi + 88) rdx

/- What the processor reads in the two words of a system descriptor in 64-bit mode. -/
structure SystemDescriptor where
  base : BitVec 64
  limit : BitVec 20
  attr : BitVec 8
  flags : BitVec 4
  reserved : BitVec 32
deriving DecidableEq

def SystemDescriptor.decode (low high : BitVec 64) : SystemDescriptor where
  base := high.extractLsb' 0 32 ++ low.extractLsb' 56 8 ++ low.extractLsb' 16 24
  limit := low.extractLsb' 48 4 ++ low.extractLsb' 0 16
  attr := low.extractLsb' 40 8
  flags := low.extractLsb' 52 4
  reserved := high.extractLsb' 32 32

def SystemDescriptor.lowFields (d : SystemDescriptor) : List Field :=
  [⟨0, d.limit.extractLsb' 0 16⟩, ⟨16, d.base.extractLsb' 0 24⟩, ⟨40, d.attr⟩,
    ⟨48, d.limit.extractLsb' 16 4⟩, ⟨52, d.flags⟩, ⟨56, d.base.extractLsb' 24 8⟩]

def SystemDescriptor.highFields (d : SystemDescriptor) : List Field :=
  [⟨0, d.base.extractLsb' 32 32⟩, ⟨32, d.reserved⟩]

structure Gate where
  offset : BitVec 64
  selector : BitVec 16
  ist : BitVec 3
  zero : BitVec 5
  attr : BitVec 8
  reserved : BitVec 32
deriving DecidableEq

def Gate.decode (low high : BitVec 64) : Gate where
  offset := high.extractLsb' 0 32 ++ low.extractLsb' 48 16 ++ low.extractLsb' 0 16
  selector := low.extractLsb' 16 16
  ist := low.extractLsb' 32 3
  zero := low.extractLsb' 35 5
  attr := low.extractLsb' 40 8
  reserved := high.extractLsb' 32 32

def Gate.lowFields (g : Gate) : List Field :=
  [⟨0, g.offset.extractLsb' 0 16⟩, ⟨16, g.selector⟩, ⟨32, g.ist⟩, ⟨35, g.zero⟩,
    ⟨40, g.attr⟩, ⟨48, g.offset.extractLsb' 16 16⟩]

def Gate.highFields (g : Gate) : List Field :=
  [⟨0, g.offset.extractLsb' 32 32⟩, ⟨32, g.reserved⟩]

section words
variable {m m' : Memory} {a x : Nat}

def storeWords (m : Memory) (a : Nat) (low high : BitVec 64) : Memory :=
  store (store m a low) (a + 8) high

theorem load_store (m : Memory) (a : Nat) (r : BitVec 64) : load (store m a r) a = r := by
  have fits : r.toNat < 256 ^ 8 := r.isLt
  rw [load, store, getLittle_setLittle, Nat.mod_eq_of_lt fits, BitVec.ofNat_toNat,
    BitVec.setWidth_eq]

theorem load_congr (same : ∀ i < 8, m (a + i) = m' (a + i)) : load m a = load m' a := by
  rw [load, load, getLittle_congr same]

theorem storeWords_outside {low high : BitVec 64} (outside : x < a ∨ a + 16 ≤ x) :
    storeWords m a low high x = m x := by
  rw [storeWords, store, setLittle_outside (by omega), store, setLittle_outside (by omega)]

theorem store_inside {r : BitVec 64} {b i : Nat} (inside : i < 8) :
    store m a r (a + i) = store m' b r (b + i) := by
  rw [store, store, TableEntries.setLittle_inside (by omega) (by omega),
    TableEntries.setLittle_inside (by omega) (by omega), Nat.add_sub_cancel_left,
    Nat.add_sub_cancel_left]

theorem storeWords_low {low high : BitVec 64} {i : Nat} (inside : i < 8) :
    storeWords m a low high (a + i) = store m a low (a + i) :=
  setLittle_outside (by omega)

theorem slice_storeWords (m m' : Memory) (a b : Nat) (low high : BitVec 64) :
    slice (storeWords m a low high) a 16 = slice (storeWords m' b low high) b 16 := by
  apply slice_congr
  intro i inside
  by_cases first : i < 8
  · rw [storeWords_low first, storeWords_low first]
    exact store_inside first
  · have second : 8 + (i - 8) = i := by omega
    rw [← second, ← Nat.add_assoc, ← Nat.add_assoc]
    exact store_inside (by omega)

theorem load_low (low high : BitVec 64) : load (storeWords m a low high) a = low := by
  rw [load_congr fun _ inside => storeWords_low inside, load_store]

theorem load_high (low high : BitVec 64) : load (storeWords m a low high) (a + 8) = high :=
  load_store _ _ high

end words

section formats

theorem SystemDescriptor.low_apart (d : SystemDescriptor) : d.lowFields.Pairwise Field.Apart := by
  simp [lowFields, Field.Apart]

theorem SystemDescriptor.low_within (d : SystemDescriptor) :
    ∀ f ∈ d.lowFields, f.Within 64 := by
  simp [lowFields, Field.Within]

theorem SystemDescriptor.high_apart (d : SystemDescriptor) :
    d.highFields.Pairwise Field.Apart := by
  simp [highFields, Field.Apart]

theorem SystemDescriptor.high_within (d : SystemDescriptor) :
    ∀ f ∈ d.highFields, f.Within 64 := by
  simp [highFields, Field.Within]

def SystemDescriptor.low (d : SystemDescriptor) : Layout 64 :=
  ⟨d.lowFields, d.low_apart, d.low_within⟩

def SystemDescriptor.high (d : SystemDescriptor) : Layout 64 :=
  ⟨d.highFields, d.high_apart, d.high_within⟩

theorem Gate.low_apart (g : Gate) : g.lowFields.Pairwise Field.Apart := by
  simp [lowFields, Field.Apart]

theorem Gate.low_within (g : Gate) : ∀ f ∈ g.lowFields, f.Within 64 := by
  simp [lowFields, Field.Within]

theorem Gate.high_apart (g : Gate) : g.highFields.Pairwise Field.Apart := by
  simp [highFields, Field.Apart]

theorem Gate.high_within (g : Gate) : ∀ f ∈ g.highFields, f.Within 64 := by
  simp [highFields, Field.Within]

def Gate.low (g : Gate) : Layout 64 := ⟨g.lowFields, g.low_apart, g.low_within⟩

def Gate.high (g : Gate) : Layout 64 := ⟨g.highFields, g.high_apart, g.high_within⟩

theorem two_parts {a b : Nat} (x : BitVec (b + a)) :
    x.extractLsb' a b ++ x.extractLsb' 0 a = x := by
  rw [BitVec.extractLsb'_append_extractLsb'_eq_extractLsb' (Nat.zero_add a).symm,
    BitVec.extractLsb'_eq_self]

theorem three_parts {a b c : Nat} (x : BitVec (c + b + a)) :
    x.extractLsb' (a + b) c ++ x.extractLsb' a b ++ x.extractLsb' 0 a = x := by
  rw [BitVec.extractLsb'_append_extractLsb'_eq_extractLsb' rfl, two_parts]

theorem SystemDescriptor.decode_words (d : SystemDescriptor) :
    decode d.low.word d.high.word = d := by
  have low := d.low.get
  have high := d.high.get
  generalize d.low.word = l at low ⊢
  generalize d.high.word = h at high ⊢
  simp only [SystemDescriptor.low, lowFields, List.forall_mem_cons] at low
  simp only [SystemDescriptor.high, highFields, List.forall_mem_cons] at high
  obtain ⟨limit₀, base₀, attr, limit₁, flags, base₁, -⟩ := low
  obtain ⟨base₂, reserved, -⟩ := high
  have base : d.base.extractLsb' 32 32 ++ d.base.extractLsb' 24 8 ++ d.base.extractLsb' 0 24 =
    d.base := three_parts (a := 24) (b := 8) (c := 32) d.base
  have limit : d.limit.extractLsb' 16 4 ++ d.limit.extractLsb' 0 16 = d.limit :=
    two_parts (a := 16) (b := 4) d.limit
  rw [decode, base₀, base₁, base₂, base, limit₀, limit₁, limit, attr, flags, reserved]

theorem Gate.decode_words (g : Gate) : decode g.low.word g.high.word = g := by
  have low := g.low.get
  have high := g.high.get
  generalize g.low.word = l at low ⊢
  generalize g.high.word = h at high ⊢
  simp only [Gate.low, lowFields, List.forall_mem_cons] at low
  simp only [Gate.high, highFields, List.forall_mem_cons] at high
  obtain ⟨offset₀, selector, ist, zero, attr, offset₁, -⟩ := low
  obtain ⟨offset₂, reserved, -⟩ := high
  have offset : g.offset.extractLsb' 32 32 ++ g.offset.extractLsb' 16 16 ++
    g.offset.extractLsb' 0 16 = g.offset := three_parts (a := 16) (b := 16) (c := 32) g.offset
  rw [decode, offset₀, offset₁, offset₂, offset, selector, ist, zero, attr, reserved]

end formats

section instructions
variable {src dst : BitVec 64}

theorem movw_put (src dst : BitVec 64) : movw src dst =
    Field.put 64 ⟨0, src.extractLsb' 0 16⟩ ||| Field.put 64 ⟨16, dst.extractLsb' 16 48⟩ := by
  rw [movw, BitVec.setWidth_eq_extractLsb' (by decide)]
  exact append_put _ _

theorem get_movl {p k : Nat} (lower : p + k ≤ 32) :
    (movl src dst).extractLsb' p k = src.extractLsb' p k := by
  rw [movl, BitVec.extractLsb'_setWidth_of_le (by omega), BitVec.extractLsb'_setWidth_of_le lower]

theorem get_shrl {count p k : Nat} (lower : count + p + k ≤ 32) :
    (shrl count dst).extractLsb' p k = dst.extractLsb' (count + p) k := by
  rw [shrl, BitVec.extractLsb'_setWidth_of_le (by omega), get_ushiftRight,
    BitVec.extractLsb'_setWidth_of_le lower]

theorem andl_put {k : Nat} (lower : k ≤ 32) (dst : BitVec 64) :
    andl (BitVec.ofNat 32 (2 ^ k - 1)) dst = Field.put 64 ⟨0, dst.extractLsb' 0 k⟩ := by
  have within : Field.Within 32 ⟨0, dst.extractLsb' 0 k⟩ := by
    simp only [Field.Within]
    omega
  rw [andl, mask_low, BitVec.extractLsb'_setWidth_of_le (by omega), put_setWidth within]

end instructions

def tssDescriptor (addr : BitVec 64) : SystemDescriptor where
  base := addr
  limit := 103
  attr := 0x89
  flags := 0
  reserved := 0

section descriptor
variable (addr : BitVec 64)

theorem limit_put : Field.put 64 ⟨0, (103 : BitVec 20).extractLsb' 0 16⟩ = 103#64 := by decide

theorem limit_rest : Field.put 64 ⟨48, (103 : BitVec 20).extractLsb' 16 4⟩ = 0#64 := by decide

theorem type_put : Field.put 64 ⟨40, (0x89 : BitVec 8)⟩ = 0x89#64 <<< 40 := by decide

theorem tssDescriptor_or : (tssDescriptor addr).low.word =
    103#64 ||| (Field.put 64 ⟨16, addr.extractLsb' 0 24⟩ |||
      (0x89#64 <<< 40 ||| Field.put 64 ⟨56, addr.extractLsb' 24 8⟩)) := by
  simp only [Layout.word, SystemDescriptor.low, SystemDescriptor.lowFields, tssDescriptor, layOut,
    limit_put, limit_rest, type_put, put_zero, BitVec.zero_or, BitVec.or_zero]

theorem tssDescriptor_sum : (tssDescriptor addr).low.word =
    103#64 + (Field.put 64 ⟨16, addr.extractLsb' 0 24⟩ +
      (0x89#64 <<< 40 + Field.put 64 ⟨56, addr.extractLsb' 24 8⟩)) := by
  rw [← Layout.sum]
  simp only [SystemDescriptor.low, SystemDescriptor.lowFields, tssDescriptor, List.map_cons,
    List.map_nil, List.sum_cons, List.sum_nil, limit_put, limit_rest, type_put, put_zero,
    BitVec.zero_add, add_zero]

theorem tssDescriptor_high : (tssDescriptor addr).high.word =
    Field.put 64 ⟨0, addr.extractLsb' 32 32⟩ := by
  simp only [Layout.word, SystemDescriptor.high, SystemDescriptor.highFields, tssDescriptor, layOut,
    put_zero, BitVec.or_zero]

end descriptor

theorem mask_shift (addr : BitVec 64) (s k p : Nat) :
    (addr >>> s &&& BitVec.ofNat 64 (2 ^ k - 1)) <<< p =
      Field.put 64 ⟨p, addr.extractLsb' s k⟩ := by
  rw [mask_low, get_ushiftRight, put_shiftLeft, Nat.zero_add, Nat.add_zero]

theorem setTssDescriptor_words (m : Memory) (gdtTable : Nat) (n : BitVec 32) (addr : BitVec 64) :
    setTssDescriptor m gdtTable n addr =
      storeWords m (gdtTable + 8 * n.toNat) (tssDescriptor addr).low.word
        (tssDescriptor addr).high.word := by
  have first : (addr &&& 0xffff#64) <<< 16 = Field.put 64 ⟨16, addr.extractLsb' 0 16⟩ := by
    rw [← mask_shift, BitVec.ushiftRight_zero]
    rfl
  have second : (addr >>> 16 &&& 0xff#64) <<< 32 = Field.put 64 ⟨32, addr.extractLsb' 16 8⟩ :=
    mask_shift addr 16 8 32
  have third : (addr >>> 24 &&& 0xff#64) <<< 56 = Field.put 64 ⟨56, addr.extractLsb' 24 8⟩ :=
    mask_shift addr 24 8 56
  have split : Field.put 64 ⟨16, addr.extractLsb' 0 24⟩ =
      Field.put 64 ⟨16, addr.extractLsb' 0 16⟩ ||| Field.put 64 ⟨32, addr.extractLsb' 16 8⟩ :=
    put_split addr 16 0 16 8
  have low : (103#64 &&& 0xffff#64) ||| ((addr &&& 0xffff#64) <<< 16) |||
      ((addr >>> 16 &&& 0xff#64) <<< 32) ||| (0x89#64 <<< 40) |||
      ((103#64 >>> 16 &&& 0xf#64) <<< 48) ||| ((addr >>> 24 &&& 0xff#64) <<< 56) =
        (tssDescriptor addr).low.word := by
    have limit : 103#64 &&& 0xffff#64 = 103#64 := by decide
    have rest : (103#64 >>> 16 &&& 0xf#64) <<< 48 = 0#64 := by decide
    rw [first, second, third, limit, rest, BitVec.or_zero, tssDescriptor_or, split]
    simp only [BitVec.or_assoc]
  have high : (addr >>> 32 &&& 0xffffffff#64) ||| 0#64 = (tssDescriptor addr).high.word := by
    rw [tssDescriptor_high, ← Nat.add_zero 32, ← get_ushiftRight, BitVec.or_zero]
    exact mask_low _ 32
  rw [← low, ← high]
  rfl

theorem setupTSS64_words (m : Memory) (gdtTable : Nat) (initTss rax rcx : BitVec 64) :
    setupTSS64 m gdtTable initTss rax rcx =
      storeWords m (gdtTable + 80) (tssDescriptor initTss).low.word
        (tssDescriptor initTss).high.word := by
  have first (dst : BitVec 64) : shrl 24 (movl initTss dst) <<< 56 =
      Field.put 64 ⟨56, initTss.extractLsb' 24 8⟩ := by
    rw [shiftLeft_put _ (by decide : 64 ≤ 56 + 8), get_shrl (by decide), get_movl (by decide)]
  have second (dst : BitVec 64) : andl 0xffffff#32 (movl initTss dst) <<< 16 =
      Field.put 64 ⟨16, initTss.extractLsb' 0 24⟩ := by
    have mask : 0xffffff#32 = BitVec.ofNat 32 (2 ^ 24 - 1) := rfl
    rw [mask, andl_put (by decide), put_shiftLeft, get_movl (by decide)]
  have low : 0x89#64 <<< 40 + shrl 24 (movl initTss 0) <<< 56 +
      andl 0xffffff#32 (movl initTss 0) <<< 16 + 103#64 = (tssDescriptor initTss).low.word := by
    rw [first, second, tssDescriptor_sum, BitVec.add_comm _ 103#64,
      BitVec.add_comm _ (Field.put 64 ⟨16, _⟩)]
  have high : initTss >>> 32 = (tssDescriptor initTss).high.word := by
    rw [tssDescriptor_high]
    exact ushiftRight_put initTss (by decide)
  rw [← low, ← high]
  rfl

def kernelGate (codeAddr : BitVec 64) (attr ist : BitVec 8) : Gate where
  offset := codeAddr
  selector := 0x08
  ist := ist.setWidth 3
  zero := 0
  attr := attr
  reserved := 0

section gate
variable (attr ist : BitVec 8) (upper : BitVec 56) (codeAddr : BitVec 64)

theorem selector_put : Field.put 64 ⟨16, (0x8#64 <<< 16).extractLsb' 16 48⟩ =
    Field.put 64 ⟨16, (0x08 : BitVec 16)⟩ := by decide

theorem movw_selector : movw codeAddr (0x8#64 <<< 16) =
    Field.put 64 ⟨0, codeAddr.extractLsb' 0 16⟩ + Field.put 64 ⟨16, (0x08 : BitVec 16)⟩ := by
  rw [movw_put, selector_put, put_add]
  exact .inl (Nat.le_refl 16)

/- attr << 8 is positive as an immediate, so that its sign adds nothing. -/
theorem attr_put : (attr.setWidth 32 <<< 8).signExtend 64 = Field.put 64 ⟨8, attr⟩ := by
  have within : Field.Within 32 ⟨8, attr⟩ := by simp [Field.Within]
  have word : attr.setWidth 32 <<< 8 = Field.put 32 ⟨8, attr⟩ := rfl
  have positive : (attr.setWidth 32 <<< 8).msb = false := by
    rw [word, BitVec.msb_eq_getLsbD_last, getLsbD_put]
    simp
  rw [BitVec.signExtend_eq_setWidth_of_msb_false positive, word, put_setWidth within]

theorem ist_put : (upper ++ ist) &&& 0x7#64 = Field.put 64 ⟨0, ist.setWidth 3⟩ := by
  have bits : (upper ++ ist).extractLsb' 0 3 = ist.setWidth 3 := by
    rw [BitVec.extractLsb'_append_eq_of_add_le (by decide),
      BitVec.setWidth_eq_extractLsb' (by decide)]
  rw [← bits]
  exact mask_low _ 3

theorem kernelGate_low : (kernelGate codeAddr attr ist).low.word =
    Field.put 64 ⟨0, codeAddr.extractLsb' 0 16⟩ + (Field.put 64 ⟨16, (0x08 : BitVec 16)⟩ +
      (Field.put 64 ⟨32, ist.setWidth 3⟩ + (Field.put 64 ⟨40, attr⟩ +
        Field.put 64 ⟨48, codeAddr.extractLsb' 16 16⟩))) := by
  rw [← Layout.sum]
  simp only [Gate.low, Gate.lowFields, kernelGate, List.map_cons, List.map_nil, List.sum_cons,
    List.sum_nil, put_zero, BitVec.zero_add, add_zero]

theorem kernelGate_high : codeAddr >>> 32 = (kernelGate codeAddr attr ist).high.word := by
  simp only [Layout.word, Gate.high, Gate.highFields, kernelGate, layOut, put_zero, BitVec.or_zero]
  exact ushiftRight_put codeAddr (by decide)

end gate

theorem setGate_words (m : Memory) (gateSelectorAddr : Nat) (attr ist : BitVec 8)
    (upper : BitVec 56) (codeAddr : BitVec 64) :
    setGate m gateSelectorAddr attr ist upper codeAddr =
      storeWords m gateSelectorAddr (kernelGate codeAddr attr ist).low.word
        (kernelGate codeAddr attr ist).high.word := by
  have first (dst : BitVec 64) : (movl codeAddr dst >>> 16) <<< 48 =
      Field.put 64 ⟨48, codeAddr.extractLsb' 16 16⟩ := by
    rw [shiftLeft_put _ (by decide : 64 ≤ 48 + 16), get_ushiftRight, get_movl (by decide)]
  have second : (((upper ++ ist) &&& 0x7#64) + (attr.setWidth 32 <<< 8).signExtend 64) <<< 32 =
      Field.put 64 ⟨32, ist.setWidth 3⟩ + Field.put 64 ⟨40, attr⟩ := by
    rw [ist_put, attr_put, BitVec.shiftLeft_add_distrib, put_shiftLeft, put_shiftLeft]
  have low : movw codeAddr (0x8#64 <<< 16) +
      (((upper ++ ist) &&& 0x7#64) + (attr.setWidth 32 <<< 8).signExtend 64) <<< 32 +
        (movl codeAddr 0 >>> 16) <<< 48 = (kernelGate codeAddr attr ist).low.word := by
    rw [first, second, movw_selector, kernelGate_low]
    simp only [BitVec.add_assoc]
  rw [← low, ← kernelGate_high]
  rfl

def SystemDescriptor.read (m : Memory) (a : Nat) : SystemDescriptor :=
  decode (load m a) (load m (a + 8))

def Gate.read (m : Memory) (a : Nat) : Gate := decode (load m a) (load m (a + 8))

theorem load_words_congr {m m' : Memory} {a : Nat} (same : ∀ i < 16, m (a + i) = m' (a + i)) :
    load m a = load m' a ∧ load m (a + 8) = load m' (a + 8) := by
  refine ⟨load_congr fun i inside => same i (by omega), ?_⟩
  apply load_congr
  intro i inside
  rw [Nat.add_assoc]
  exact same (8 + i) (by omega)

theorem Gate.read_congr {m m' : Memory} {a : Nat} (same : ∀ i < 16, m (a + i) = m' (a + i)) :
    read m a = read m' a := by
  have words := load_words_congr same
  rw [read, read, words.1, words.2]

theorem Gate.read_storeWords (m : Memory) (a : Nat) (low high : BitVec 64) :
    read (storeWords m a low high) a = decode low high := by
  rw [read, load_low, load_high]

theorem read_setTssDescriptor (m : Memory) (gdtTable : Nat) (n : BitVec 32) (addr : BitVec 64) :
    SystemDescriptor.read (setTssDescriptor m gdtTable n addr) (gdtTable + 8 * n.toNat) =
      tssDescriptor addr := by
  rw [setTssDescriptor_words, SystemDescriptor.read, load_low, load_high,
    SystemDescriptor.decode_words]

theorem read_setGate (m : Memory) (gateSelectorAddr : Nat) (attr ist : BitVec 8)
    (upper : BitVec 56) (codeAddr : BitVec 64) :
    Gate.read (setGate m gateSelectorAddr attr ist upper codeAddr) gateSelectorAddr =
      kernelGate codeAddr attr ist := by
  rw [setGate_words, Gate.read_storeWords, Gate.decode_words]

theorem setGate_outside {m : Memory} {gateSelectorAddr x : Nat} {attr ist : BitVec 8}
    {upper : BitVec 56} {codeAddr : BitVec 64}
    (outside : x < gateSelectorAddr ∨ gateSelectorAddr + 16 ≤ x) :
    setGate m gateSelectorAddr attr ist upper codeAddr x = m x := by
  rw [setGate_words, storeWords_outside outside]

theorem setTssDescriptor_outside {m : Memory} {gdtTable x : Nat} {n : BitVec 32}
    {addr : BitVec 64} (outside : x < gdtTable + 8 * n.toNat ∨ gdtTable + 8 * n.toNat + 16 ≤ x) :
    setTssDescriptor m gdtTable n addr x = m x := by
  rw [setTssDescriptor_words, storeWords_outside outside]

/- The two implementations write the same 16 bytes, and at the tenth entry the same memory. -/
theorem slice_setupTSS64 (m m' : Memory) (gdtTable gdtTable' : Nat) (n : BitVec 32)
    (addr rax rcx : BitVec 64) :
    slice (setTssDescriptor m gdtTable n addr) (gdtTable + 8 * n.toNat) 16 =
      slice (setupTSS64 m' gdtTable' addr rax rcx) (gdtTable' + 80) 16 := by
  rw [setTssDescriptor_words, setupTSS64_words, slice_storeWords]

theorem setupTSS64_eq (m : Memory) (gdtTable : Nat) (addr rax rcx : BitVec 64) :
    setupTSS64 m gdtTable addr rax rcx = setTssDescriptor m gdtTable 10 addr := by
  rw [setTssDescriptor_words, setupTSS64_words]
  rfl

theorem SystemDescriptor.read_congr {m m' : Memory} {a : Nat}
    (same : ∀ i < 16, m (a + i) = m' (a + i)) : read m a = read m' a := by
  have words := load_words_congr same
  rw [read, read, words.1, words.2]

section processors
variable (m : Memory) (gdtTable : Nat) (initTss : Nat → BitVec 64)

/- The descriptor of the segment of a processor, two places of the table for each. -/
def segment (m : Memory) (gdtTable cpu : Nat) : SystemDescriptor :=
  SystemDescriptor.read m (gdtTable + 8 * (10 + 2 * cpu))

def smpDescriptors : Nat → Memory
  | 0 => m
  | turns + 1 =>
    let globalI := turns + 1
    setTssDescriptor (smpDescriptors turns) gdtTable (BitVec.ofNat 32 (10 + globalI * 2))
      (initTss globalI)

theorem segment_step {turns cpu : Nat} (few : turns < 2 ^ 30) :
    segment (smpDescriptors m gdtTable initTss (turns + 1)) gdtTable cpu =
      if cpu = turns + 1 then tssDescriptor (initTss cpu)
      else segment (smpDescriptors m gdtTable initTss turns) gdtTable cpu := by
  have place : (BitVec.ofNat 32 (10 + (turns + 1) * 2)).toNat = 10 + 2 * (turns + 1) := by
    rw [BitVec.toNat_ofNat]
    omega
  by_cases own : cpu = turns + 1
  · rw [if_pos own, own, segment, ← place]
    exact read_setTssDescriptor _ _ _ _
  · rw [if_neg own, segment, segment]
    apply SystemDescriptor.read_congr
    intro i inside
    exact setTssDescriptor_outside (by omega)

/- Each processor has the descriptor of its own segment, also after the turns for the others. -/
theorem segments_booted (rax rcx : BitVec 64) {turns cpu : Nat} (few : turns < 2 ^ 30)
    (started : cpu ≤ turns) :
    segment (smpDescriptors (setupTSS64 m gdtTable (initTss 0) rax rcx) gdtTable initTss turns)
      gdtTable cpu = tssDescriptor (initTss cpu) := by
  induction turns with
  | zero =>
    have first : cpu = 0 := by omega
    rw [first, smpDescriptors, setupTSS64_eq]
    exact read_setTssDescriptor m gdtTable 10 (initTss 0)
  | succ turns ih =>
    rw [segment_step _ _ _ (by omega)]
    by_cases own : cpu = turns + 1
    · rw [if_pos own]
    · rw [if_neg own, ih (by omega) (by omega)]

end processors

/-- Every descriptor decodes to what was asked for, whatever the address, and the two writers of
    task state descriptors agree. -/
theorem descriptors_decode (m : Memory) :
    (∀ (gdtTable : Nat) (n : BitVec 32) (addr : BitVec 64),
      let at_ := gdtTable + 8 * n.toNat
      let written := setTssDescriptor m gdtTable n addr
      let d := SystemDescriptor.read written at_
      d.base = addr ∧ d.limit = 103 ∧ d.attr = 0x89 ∧ d.flags = 0 ∧ d.reserved = 0 ∧
        (∀ x, x < at_ ∨ at_ + 16 ≤ x → written x = m x) ∧
        (∀ (m' : Memory) (gdtTable' : Nat) (rax rcx : BitVec 64),
          slice written at_ 16 =
            slice (setupTSS64 m' gdtTable' addr rax rcx) (gdtTable' + 80) 16) ∧
        ∀ rax rcx, setupTSS64 m gdtTable addr rax rcx = setTssDescriptor m gdtTable 10 addr) ∧
    ∀ (gateSelectorAddr : Nat) (attr ist : BitVec 8) (upper : BitVec 56) (codeAddr : BitVec 64),
      let written := setGate m gateSelectorAddr attr ist upper codeAddr
      let g := Gate.read written gateSelectorAddr
      g.offset = codeAddr ∧ g.selector = 0x08 ∧ g.ist.toNat = ist.toNat % 8 ∧ g.attr = attr ∧
        g.zero = 0 ∧ g.reserved = 0 ∧
        ∀ x, x < gateSelectorAddr ∨ gateSelectorAddr + 16 ≤ x → written x = m x := by
  refine ⟨fun gdtTable n addr => ?_, fun gateSelectorAddr attr ist upper codeAddr => ?_⟩
  · simp only [read_setTssDescriptor]
    exact ⟨rfl, rfl, rfl, rfl, rfl, fun x outside => setTssDescriptor_outside outside,
      fun m' gdtTable' rax rcx => slice_setupTSS64 m m' gdtTable gdtTable' n addr rax rcx,
      fun rax rcx => setupTSS64_eq m gdtTable addr rax rcx⟩
  · simp only [read_setGate]
    exact ⟨rfl, rfl, BitVec.toNat_setWidth 3 ist, rfl, rfl, rfl,
      fun x outside => setGate_outside outside⟩

end GateDescriptors

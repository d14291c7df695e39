import Q2os.FormatRuns

/- The six integer conversions of vsprintf, and what the numerals that it prints read back as. -/
namespace Printk
open ByteMemory Fat32
open StateRuns

inductive IntegerConversion
  | d | i | u | o | x | X
deriving DecidableEq, Repr

section conversions
variable (c : IntegerConversion) (l : Bool)

def IntegerConversion.letter : UInt8 :=
  match c with
  | .d => 0x64
  | .i => 0x69
  | .u => 0x75
  | .o => 0x6f
  | .x => 0x78
  | .X => 0x58

def IntegerConversion.base : Nat :=
  match c with
  | .o => 8
  | .x | .X => 16
  | _ => 10

def IntegerConversion.flags : Flags :=
  match c with
  | .d | .i => { Flags.none with sign := true }
  | .x => { Flags.none with small := true }
  | _ => Flags.none

def IntegerConversion.num (w : BitVec 64) : BitVec 64 :=
  if l then w
  else match c with
    | .d | .i | .u => BitVec.ofInt 64 (asInt w)
    | _ => asUnsignedInt w

def conversionText : List UInt8 := if l then [0x25, 0x6c, c.letter] else [0x25, c.letter]
def conversionFormat (i : Nat) : UInt8 := (conversionText c l).getD i 0

def IntegerConversion.value (w : BitVec 64) : Int :=
  match c with
  | .d | .i => if l then w.toInt else (w.setWidth 32).toInt
  | _ => if l then w.toNat else w.toNat % 2 ^ 32

end conversions

def digitValue (c : UInt8) : Option Nat :=
  if 0x30 ≤ c ∧ c ≤ 0x39 then some (c.toNat - 0x30)
  else if 0x61 ≤ c ∧ c ≤ 0x7a then some (c.toNat - 0x61 + 10)
  else if 0x41 ≤ c ∧ c ≤ 0x5a then some (c.toNat - 0x41 + 10)
  else none

/- A text of one digit of the base at least, read with its first digit first. -/
def readDigit (base : Nat) (read : Option Nat) (c : UInt8) : Option Nat := do
  let high ← read
  let digit ← digitValue c
  if digit < base then some (high * base + digit) else none

def readDigits (base : Nat) (text : List UInt8) : Option Nat :=
  if text = [] then none else text.foldl (readDigit base) (some 0)

def readNumeral (base : Nat) (text : List UInt8) : Option Int :=
  if text.head? = some minusSign then (readDigits base text.tail).map fun n : Nat => -(n : Int)
  else (readDigits base text).map fun n : Nat => (n : Int)

section reading
variable {base : Nat} {type : Flags} {num : BitVec 64}

theorem digitValue_digits : ∀ (small : Bool), ∀ i < 36, digitValue (digits small i) = some i := by decide

theorem digits_ne_minus : ∀ (small : Bool), ∀ i < 36, digits small i ≠ minusSign := by decide

theorem readDigit_digits (small : Bool) (valid : base ≤ 36) (ds : List Nat) (inside : ∀ d ∈ ds, d < base) :
    ((ds.map (digits small)).reverse).foldl (readDigit base) (some 0) = some (Nat.ofDigits base ds) := by
  rw [List.foldl_reverse]
  induction ds with
  | nil => rfl
  | cons d ds ih =>
    have less := inside d List.mem_cons_self
    rw [List.map_cons, List.foldr_cons, ih fun e member => inside e (List.mem_cons_of_mem d member)]
    simp only [readDigit, Option.bind_eq_bind, Option.bind_some,
      digitValue_digits small d (Nat.lt_of_lt_of_le less valid), if_pos less, Nat.ofDigits_cons]
    congr 1
    ring

/- A numeral begins with a digit and reads back as its value. -/
theorem numeral_read (small : Bool) (valid : 2 ≤ base ∧ base ≤ 36) (value : Nat) :
    readDigits base (numeral small base value) = some value ∧
      ∃ i < 36, (numeral small base value).head? = some (digits small i) := by
  have inside : ∀ d ∈ base.digits value, d < base := fun d member => Nat.digits_lt_base valid.1 member
  unfold readDigits numeral
  by_cases here : value = 0
  · rw [if_pos here, here]
    refine ⟨?_, 0, by decide, rfl⟩
    have less : 0 < base := by omega
    simp [readDigit, digitValue, zero, less]
  · rw [if_neg here]
    have some_ := Nat.digits_ne_nil_iff_ne_zero (b := base).mpr here
    have some' : ((base.digits value).map (digits small)).reverse ≠ [] := by
      intro none_
      exact some_ (List.map_eq_nil_iff.mp (List.reverse_eq_nil_iff.mp none_))
    refine ⟨?_, (base.digits value).getLast some_, ?_, ?_⟩
    · rw [if_neg some', readDigit_digits small valid.2 _ inside, Nat.ofDigits_digits]
    · exact Nat.lt_of_lt_of_le (inside _ (List.getLast_mem some_)) valid.2
    · rw [List.head?_reverse, List.getLast?_map, List.getLast?_eq_some_getLast some_]
      rfl

/- Without flags but SIGN and SMALL there is nothing but a sign in front of the numeral. -/
theorem laidOut_plain (plus : type.plus = false) (space : type.space = false)
    (special : type.special = false) :
    laidOut type num base (-1) (-1) =
      (if type.sign ∧ num.toInt < 0 then [minusSign] else []) ++
        numeral type.small base (printed type num) := by
  have none_ : prefixChars type base = [] := by
    unfold prefixChars
    rw [special]
    rfl
  have sign : signText type num = if type.sign ∧ num.toInt < 0 then [minusSign] else [] := by
    unfold signText
    rw [plus, space]
    rfl
  have gap : ∀ a b : Nat, (-1 - ((a : Int) + (0 : Nat) + max (b : Int) (-1))).toNat = 0 := by omega
  unfold laidOut layout
  have zeros : ∀ a : Nat, (-1 : Int).toNat - a = 0 := fun a => Nat.zero_sub a
  rw [none_, ← sign]
  simp only [List.length_nil, gap, zeros, ite_self, List.replicate_zero, List.append_nil, List.nil_append]

theorem laidOut_read (plus : type.plus = false) (space : type.space = false)
    (special : type.special = false) (valid : 2 ≤ base ∧ base ≤ 36) :
    readNumeral base (laidOut type num base (-1) (-1)) =
      some (if type.sign then num.toInt else num.toNat) := by
  obtain ⟨read, i, less, first⟩ := numeral_read type.small valid (printed type num)
  rw [laidOut_plain plus space special]
  unfold readNumeral
  by_cases below : type.sign = true ∧ num.toInt < 0
  · rw [if_pos below, if_pos below.1]
    have first' : ([minusSign] ++ numeral type.small base (printed type num)).head? = some minusSign := rfl
    have shown : printed type num = num.toInt.natAbs := if_pos below.1
    have tail : ([minusSign] ++ numeral type.small base (printed type num)).tail =
        numeral type.small base (printed type num) := rfl
    rw [if_pos first', tail, read, shown, Option.map_some]
    congr 1
    omega
  · rw [if_neg below, List.nil_append, first, if_neg (by
      intro same
      exact digits_ne_minus type.small i less (Option.some.inj same)), read, Option.map_some]
    congr 1
    unfold printed
    by_cases sign : type.sign = true
    · have above : ¬ num.toInt < 0 := fun negative => below ⟨sign, negative⟩
      rw [if_pos sign, if_pos sign]
      omega
    · rw [if_neg sign, if_neg sign]

end reading

theorem directive_integer {c : IntegerConversion} {l : Bool} {args : Nat → BitVec 64} {s : Scan}
    (start : s.fmt = 0) (k : Nat) :
    ∃ seen, directive (conversionFormat c l) args (k + 1) s =
      putNumber (c.num l (args s.taken)) c.base (-1) (-1) c.flags
        { s with fmt := (conversionText c l).length - 1, taken := s.taken + 1, seen := seen } := by
  cases s
  subst start
  cases c <;> cases l <;> exact ⟨_, rfl⟩

section printed
variable {c : IntegerConversion} {l : Bool} {w : BitVec 64}

theorem IntegerConversion.base_used : c.base = 8 ∨ c.base = 10 ∨ c.base = 16 := by
  cases c <;> decide

theorem number_integer (num : BitVec 64) :
    number num c.base (-1) (-1) c.flags = some (laidOut c.flags num c.base (-1) (-1)) := by
  refine number_laidOut IntegerConversion.base_used (by decide) ?_
  have wide : 8 ≤ c.base := by
    cases c <;> decide
  have short := (numeral_length c.flags.small wide (@printed_lt c.flags num)).2
  have signs := @signText_length c.flags num
  have loops : c.flags.loops = 2 := by
    cases c <;> rfl
  have none_ : (prefixChars c.flags c.base).length = 0 := by
    cases c <;> rfl
  unfold room
  rw [loops, none_]
  omega

def IntegerConversion.shown (c : IntegerConversion) (l : Bool) (w : BitVec 64) : Int :=
  if c.flags.sign then (c.num l w).toInt else (c.num l w).toNat

/- %u alone takes its argument for an int. -/
theorem shown_value_iff :
    c.shown l w = c.value l w ↔ ¬ (c = .u ∧ l = false ∧ 2 ^ 31 ≤ w.toNat % 2 ^ 32) := by
  have signed : (BitVec.ofInt 64 (asInt w)).toInt = asInt w := by
    have low := BitVec.le_toInt (w.setWidth 32)
    have high := @BitVec.toInt_lt 32 (w.setWidth 32)
    rw [BitVec.toInt_ofInt]
    exact Int.bmod_eq_of_le_mul_two (by unfold asInt; omega) (by unfold asInt; omega)
  have narrow : (asUnsignedInt w).toNat = w.toNat % 2 ^ 32 := by
    unfold asUnsignedInt
    rw [BitVec.toNat_setWidth, BitVec.toNat_setWidth]
    omega
  have unsigned : ((BitVec.ofInt 64 (asInt w)).toNat : Int) = (w.toNat % 2 ^ 32 : Nat) ↔
      ¬ 2 ^ 31 ≤ w.toNat % 2 ^ 32 := by
    unfold asInt
    rw [BitVec.toNat_ofInt, BitVec.toInt_eq_toNat_bmod, BitVec.toNat_setWidth, Int.bmod_def]
    omega
  cases l with
  | true =>
    have right : c.shown true w = c.value true w := by
      cases c <;> rfl
    exact ⟨fun _ wrong => (by cases wrong.2.1), fun _ => right⟩
  | false =>
    cases c with
    | u =>
      change ((BitVec.ofInt 64 (asInt w)).toNat : Int) = (w.toNat % 2 ^ 32 : Nat) ↔ _
      rw [unsigned]
      exact ⟨fun low wrong => low wrong.2.2, fun right high => right ⟨rfl, rfl, high⟩⟩
    | d => exact ⟨fun _ wrong => (by cases wrong.1), fun _ => signed⟩
    | i => exact ⟨fun _ wrong => (by cases wrong.1), fun _ => signed⟩
    | o => exact ⟨fun _ wrong => (by cases wrong.1), fun _ => congrArg Int.ofNat narrow⟩
    | x => exact ⟨fun _ wrong => (by cases wrong.1), fun _ => congrArg Int.ofNat narrow⟩
    | X => exact ⟨fun _ wrong => (by cases wrong.1), fun _ => congrArg Int.ofNat narrow⟩

theorem vsprintf_integer (args : Nat → BitVec 64) (memory : Memory) (k : Nat) :
    ∃ value s, vsprintf (conversionFormat c l) args (k + 4) memory = some (value, s) ∧
      readNumeral c.base s.str = some (c.shown l (args 0)) := by
  obtain ⟨seen, directive_⟩ := @directive_integer c l args ⟨0, [], 0, memory, [0]⟩ rfl (k + 3)
  have written : ∀ s, putNumber (c.num l (args 0)) c.base (-1) (-1) c.flags s =
      some ((), { s with str := s.str ++ laidOut c.flags (c.num l (args 0)) c.base (-1) (-1) }) := by
    intro s
    unfold putNumber
    rw [number_integer]
    rfl
  have percent : conversionFormat c l 0 = 0x25 := by
    cases l <;> rfl
  have ended : conversionFormat c l (conversionText c l).length = 0 := by
    cases l <;> rfl
  have first : scan (conversionFormat c l) args (k + 4) (k + 4) ⟨0, [], 0, memory, []⟩ =
      scan (conversionFormat c l) args (k + 4) (k + 3) ⟨(conversionText c l).length - 1 + 1,
        laidOut c.flags (c.num l (args 0)) c.base (-1) (-1), 1, memory, seen⟩ := by
    rw [scan]
    change (if conversionFormat c l 0 ≠ 0 then _ else _ : Vs Unit) _ = _
    rw [if_pos (by rw [percent]; decide), bind_run, directive_, written]
    rfl
  have behind : (conversionText c l).length - 1 + 1 = (conversionText c l).length := by
    cases l <;> rfl
  rw [behind] at first
  refine ⟨toInt32 (laidOut c.flags (c.num l (args 0)) c.base (-1) (-1)).length,
    ⟨(conversionText c l).length, laidOut c.flags (c.num l (args 0)) c.base (-1) (-1), 1, memory,
      (conversionText c l).length :: seen⟩, ?_, ?_⟩
  · unfold vsprintf
    rw [first, scan]
    change (((if conversionFormat c l (conversionText c l).length ≠ 0 then _ else _ : Vs Unit) _).bind _) = _
    rw [if_neg (by rw [ended]; decide)]
    rfl
  · refine laidOut_read ?_ ?_ ?_ ?_
    · cases c <;> rfl
    · cases c <;> rfl
    · cases c <;> rfl
    · cases c <;> decide

theorem integer_value_iff (args : Nat → BitVec 64) (memory : Memory) {rounds : Nat} (enough : 4 ≤ rounds) :
    (∃ value s, vsprintf (conversionFormat c l) args rounds memory = some (value, s) ∧
      readNumeral c.base s.str = some (c.value l (args 0))) ↔
    ¬ (c = .u ∧ l = false ∧ 2 ^ 31 ≤ (args 0).toNat % 2 ^ 32) := by
  obtain ⟨k, rfl⟩ := Nat.exists_eq_add_of_le' enough
  obtain ⟨value, s, ran, read⟩ := @vsprintf_integer c l args memory k
  rw [← shown_value_iff]
  constructor
  · intro right
    obtain ⟨value', s', ran', read'⟩ := right
    rw [ran] at ran'
    obtain ⟨rfl, rfl⟩ := Prod.mk.inj (Option.some.inj ran')
    exact Option.some.inj (read.symm.trans read')
  · intro same
    exact ⟨value, s, ran, same ▸ read⟩

end printed

/-- An integer conversion prints the value that C gives it, but %u takes its argument for an int. -/
theorem vsprintf_reads_back (c : IntegerConversion) (l : Bool) (args : Nat → BitVec 64) (memory : Memory)
    {rounds : Nat} (enough : 4 ≤ rounds) :
    (∃ value s, vsprintf (conversionFormat c l) args rounds memory = some (value, s) ∧
      readNumeral c.base s.str = some (c.value l (args 0))) ↔
    ¬ (c = .u ∧ l = false ∧ 2 ^ 31 ≤ (args 0).toNat % 2 ^ 32) :=
  integer_value_iff args memory enough

theorem vsprintf_reads_back_long :
    (∃ value s, vsprintf (conversionFormat .u true) (fun _ => 0x8000000000000000) 4 (fun _ => 0) =
        some (value, s) ∧
      readNumeral (IntegerConversion.base .u) s.str =
        some (IntegerConversion.value .u true 0x8000000000000000)) ↔
    ¬ (IntegerConversion.u = .u ∧ true = false ∧
      2 ^ 31 ≤ (0x8000000000000000 : BitVec 64).toNat % 2 ^ 32) :=
  vsprintf_reads_back .u true (fun _ => 0x8000000000000000) (fun _ => 0) (Nat.le_refl 4)

def greatest (_ : Nat) : BitVec 64 := 0xffffffff

theorem unsigned_read_wrong :
    ¬ ∃ value s, vsprintf (conversionFormat .u false) greatest 4 (fun _ => 0) = some (value, s) ∧
      readNumeral (IntegerConversion.base .u) s.str = some (IntegerConversion.value .u false (greatest 0)) := by
  have high : 2 ^ 31 ≤ (greatest 0).toNat % 2 ^ 32 := by decide
  intro right
  exact (integer_value_iff greatest _ (Nat.le_refl 4)).mp right ⟨rfl, rfl, high⟩

end Printk

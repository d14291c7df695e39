import Mathlib.Data.Nat.Digits.Lemmas
import Q2os.Fat32

/- number() of printk.c: a numeral of a base with its sign, its prefix and three kinds of padding. -/
namespace Printk
open Fat32 (toInt32)

structure Flags where
  zeropad : Bool
  sign : Bool
  plus : Bool
  space : Bool
  left : Bool
  special : Bool
  small : Bool
deriving DecidableEq, Repr

def Flags.none : Flags := ⟨false, false, false, false, false, false, false⟩

def blank : UInt8 := 0x20
def plusSign : UInt8 := 0x2b
def minusSign : UInt8 := 0x2d
def zero : UInt8 := 0x30

/- One of the two tables digits, with the 26 capital or small letters behind the ten figures. -/
def digits (small : Bool) (i : Nat) : UInt8 :=
  (if i < 10 then 0x30 + i else if small then 0x61 + (i - 10) else 0x41 + (i - 10)).toUInt8

/- while(bound < size--) *str++ = c, with the size that is left. -/
def pad (c : UInt8) (bound size : Int) : List UInt8 × Int :=
  if bound < size then
    let rest := pad c bound (size - 1)
    (c :: rest.1, rest.2)
  else ([], toInt32 (size - 1))
termination_by (size - bound).toNat

/- while(num!=0) tmp[i++]=digits[do_div(num,base)], where do_div divides without a sign. -/
def convert (digit : Nat → UInt8) (base : Nat) (valid : 2 ≤ base) (num : Nat) : List UInt8 :=
  if num = 0 then []
  else digit (num % base) :: convert digit base valid (num / base)
termination_by num
decreasing_by exact Nat.div_lt_self (by omega) valid

def writeBack (tmp : List UInt8) : Nat → List UInt8
  | 0 => []
  | i + 1 => tmp.getD i 0 :: writeBack tmp i

section parts
variable (type : Flags) (num : BitVec 64)

def negative : Bool := type.sign && num.slt 0

def magnitude : BitVec 64 := if negative type num then -num else num

def signChar : UInt8 :=
  if negative type num then minusSign
  else if type.plus then plusSign else if type.space then blank else 0

def tmpOf (base : Nat) (valid : 2 ≤ base) : List UInt8 :=
  if magnitude type num = 0 then [zero]
  else convert (digits type.small) base valid (magnitude type num).toNat

def prefixChars (base : Nat) : List UInt8 :=
  if type.special then
    if base = 8 then [zero] else if base = 16 then [zero, digits type.small 33] else []
  else []

def sizeLeft (base : Nat) (size precision : Int) : Int :=
  let size := if signChar type num ≠ 0 then toInt32 (size - 1) else size
  let size :=
    if type.special then
      if base = 16 then toInt32 (size - 2) else if base = 8 then toInt32 (size - 1) else size
    else size
  toInt32 (size - precision)

end parts

def number (num : BitVec 64) (base : Nat) (size precision : Int) (type : Flags) : Option (List UInt8) :=
  let type := if type.left then { type with zeropad := false } else type
  if valid : 2 ≤ base ∧ base ≤ 36 then
    let c := if type.zeropad then zero else blank
    let sign := signChar type num
    let tmp := tmpOf type num base valid.1
    let i := tmp.length
    let precision := if (i : Int) > precision then (i : Int) else precision
    let size := sizeLeft type num base size precision
    let spaces := if type.zeropad || type.left then ([], size) else pad blank 0 size
    let padding := if type.left then ([], spaces.2) else pad c 0 spaces.2
    let zeros := pad zero i precision
    let after := pad blank 0 padding.2
    some (spaces.1 ++ (if sign ≠ 0 then [sign] else []) ++ prefixChars type base ++ padding.1 ++
      zeros.1 ++ writeBack tmp i ++ after.1)
  else none

/- How many loops count size down before the one behind the digits does. -/
def Flags.loops (type : Flags) : Int := if type.left then 0 else if type.zeropad then 1 else 2

def numeral (small : Bool) (base value : Nat) : List UInt8 :=
  if value = 0 then [zero] else ((base.digits value).map (digits small)).reverse

/- A sign, a prefix and a numeral in a field of at least size characters. -/
def layout (type : Flags) (sign before numeral : List UInt8) (size precision : Int) : List UInt8 :=
  let gap := (size - (sign.length + before.length + max (numeral.length : Int) precision)).toNat
  List.replicate (if type.zeropad || type.left then 0 else gap) blank ++ sign ++ before ++
    List.replicate (if type.zeropad && !type.left then gap else 0) zero ++
    List.replicate (precision.toNat - numeral.length) zero ++ numeral ++
    List.replicate (if type.left then gap else 0) blank

section law
variable (type : Flags) (num : BitVec 64)

def signText : List UInt8 :=
  if type.sign ∧ num.toInt < 0 then [minusSign]
  else if type.plus then [plusSign] else if type.space then [blank] else []

def printed : Nat := if type.sign then num.toInt.natAbs else num.toNat

end law

theorem toInt32_fits {v : Int} (low : -(2 ^ 31) ≤ v) (high : v < 2 ^ 31) : toInt32 v = v :=
  Int.bmod_eq_of_le_mul_two (by omega) (by omega)

/-- A padding loop writes as many characters as size lies above the bound. -/
theorem pad_eq (c : UInt8) (bound size : Int) :
    pad c bound size =
      (List.replicate (size - bound).toNat c, toInt32 (min size bound - 1)) := by
  induction size using pad.induct c bound with
  | case1 size above ih =>
    have less : (size - bound).toNat = (size - 1 - bound).toNat + 1 := by omega
    have lowest : min size bound = min (size - 1) bound := by omega
    rw [pad, if_pos above, ih, less, List.replicate_succ, lowest]
  | case2 size below =>
    have none_ : (size - bound).toNat = 0 := by omega
    have lowest : min size bound = size := by omega
    rw [pad, if_neg below, none_, List.replicate_zero, lowest]

theorem convert_eq (digit : Nat → UInt8) {base : Nat} (valid : 2 ≤ base) (num : Nat) :
    convert digit base valid num = (base.digits num).map digit := by
  induction num using convert.induct base valid with
  | case1 =>
    rw [convert, if_pos rfl, Nat.digits_zero, List.map_nil]
  | case2 num more ih =>
    rw [convert, if_neg more, Nat.digits_def' valid (Nat.pos_of_ne_zero more), List.map_cons, ih]

theorem writeBack_succ (c : UInt8) (tmp : List UInt8) (i : Nat) :
    writeBack (c :: tmp) (i + 1) = writeBack tmp i ++ [c] := by
  induction i with
  | zero => rfl
  | succ i ih =>
    rw [writeBack, ih]
    rfl

theorem writeBack_reverse (tmp : List UInt8) : writeBack tmp tmp.length = tmp.reverse := by
  induction tmp with
  | nil => rfl
  | cons c tmp ih => rw [List.length_cons, writeBack_succ, ih, List.reverse_cons]

section digit
variable {type : Flags} {num : BitVec 64} {base : Nat}

theorem negative_iff : negative type num = true ↔ type.sign = true ∧ num.toInt < 0 := by
  simp [negative, BitVec.slt]

/- The magnitude is right for the least number too, which is its own negative. -/
theorem magnitude_printed : (magnitude type num).toNat = printed type num := by
  have range := num.isLt
  unfold magnitude printed
  by_cases below : negative type num = true
  · obtain ⟨signed, below'⟩ := negative_iff.mp below
    rw [if_pos below, if_pos signed, BitVec.toNat_neg]
    rw [BitVec.toInt_eq_toNat_bmod, Int.bmod_def] at below' ⊢
    omega
  · rw [if_neg below]
    by_cases signed : type.sign = true
    · have above : ¬ num.toInt < 0 := fun less => below (negative_iff.mpr ⟨signed, less⟩)
      rw [if_pos signed]
      rw [BitVec.toInt_eq_toNat_bmod, Int.bmod_def] at above ⊢
      omega
    · rw [if_neg signed]

theorem tmpOf_reverse (valid : 2 ≤ base) :
    (tmpOf type num base valid).reverse = numeral type.small base (printed type num) := by
  have none_ : magnitude type num = 0 ↔ printed type num = 0 := by
    rw [← magnitude_printed, ← BitVec.toNat_inj]
    rfl
  unfold tmpOf numeral
  by_cases here : printed type num = 0
  · rw [if_pos (none_.mpr here), if_pos here]
    rfl
  · rw [if_neg (fun zero_ => here (none_.mp zero_)), if_neg here, convert_eq, magnitude_printed]

theorem printed_lt : printed type num < 2 ^ 64 := by
  rw [← magnitude_printed]
  exact (magnitude type num).isLt

theorem numeral_length (small : Bool) (wide : 8 ≤ base) {value : Nat} (range : value < 2 ^ 64) :
    1 ≤ (numeral small base value).length ∧ (numeral small base value).length ≤ 22 := by
  unfold numeral
  by_cases here : value = 0
  · rw [if_pos here]
    exact ⟨Nat.le_refl 1, by show 1 ≤ 22; decide⟩
  · rw [if_neg here, List.length_reverse, List.length_map]
    constructor
    · exact List.length_pos_of_ne_nil (Nat.digits_ne_nil_iff_ne_zero.mpr here)
    · rw [Nat.digits_length_le_iff (Nat.lt_of_lt_of_le (by decide) wide)]
      calc value < 2 ^ 64 := range
        _ ≤ 8 ^ 22 := by decide
        _ ≤ base ^ 22 := Nat.pow_le_pow_left wide 22

theorem tmpOf_length (wide : 8 ≤ base) (valid : 2 ≤ base) : (tmpOf type num base valid).length ≤ 22 := by
  rw [← List.length_reverse, tmpOf_reverse valid]
  exact (numeral_length type.small wide printed_lt).2

end digit

section law
variable {type : Flags} {num : BitVec 64} {base : Nat} {size precision : Int}

theorem signText_eq :
    (if signChar type num ≠ 0 then [signChar type num] else []) = signText type num := by
  have below := @negative_iff type num
  unfold signChar signText
  by_cases negative_ : negative type num = true
  · rw [if_pos negative_, if_pos (below.mp negative_)]
    rfl
  · rw [if_neg negative_, if_neg (fun both => negative_ (below.mpr both))]
    cases type.plus <;> cases type.space <;> rfl

theorem signText_length : (signText type num).length ≤ 1 := by
  rw [← signText_eq]
  split
  · exact Nat.le_refl 1
  · exact Nat.zero_le 1

/- For the three bases and a small size only the last subtraction can wrap. -/
theorem sizeLeft_eq (used : base = 8 ∨ base = 10 ∨ base = 16) (size_small : |size| < 2 ^ 30)
    (positive : 0 ≤ precision)
    (low : -(2 ^ 31) ≤ size - ((signText type num).length + (prefixChars type base).length + precision)) :
    sizeLeft type num base size precision =
      size - ((signText type num).length + (prefixChars type base).length + precision) := by
  have range := abs_lt.mp size_small
  have first : (if signChar type num ≠ 0 then toInt32 (size - 1) else size) =
      size - (signText type num).length := by
    rw [← signText_eq]
    by_cases some_ : signChar type num ≠ 0
    · rw [if_pos some_, if_pos some_, toInt32_fits (by omega) (by omega)]
      rfl
    · rw [if_neg some_, if_neg some_]
      exact (Int.sub_zero size).symm
  have short := @signText_length type num
  unfold prefixChars at low
  unfold sizeLeft prefixChars
  rw [first]
  generalize (signText type num).length = signs at short low ⊢
  by_cases special : type.special = true
  · simp only [if_pos special] at low ⊢
    obtain rfl | rfl | rfl := used
    · have one : toInt32 (size - signs - 1) = size - signs - 1 :=
        toInt32_fits (by omega) (by omega)
      rw [if_pos rfl, List.length_singleton] at low
      rw [if_neg (by decide), if_pos rfl, if_pos rfl, one, toInt32_fits (by omega) (by omega),
        List.length_singleton]
      omega
    · rw [if_neg (by decide), if_neg (by decide), List.length_nil] at low
      rw [if_neg (by decide), if_neg (by decide), if_neg (by decide), if_neg (by decide),
        toInt32_fits (by omega) (by omega), List.length_nil]
      omega
    · have two : toInt32 (size - signs - 2) = size - signs - 2 :=
        toInt32_fits (by omega) (by omega)
      rw [if_neg (by decide), if_pos rfl, List.length_cons, List.length_singleton] at low
      rw [if_pos rfl, if_neg (by decide), if_pos rfl, two, toInt32_fits (by omega) (by omega),
        List.length_cons, List.length_singleton]
      omega
  · simp only [if_neg special, List.length_nil] at low ⊢
    rw [toInt32_fits (by omega) (by omega)]
    omega

theorem size_padding (apart : type.left = true → type.zeropad = false)
    (low : -(2 ^ 31) + type.loops ≤ size) (high : size < 2 ^ 31) :
    let spaces := if type.zeropad || type.left then ([], size) else pad blank 0 size
    let padding :=
      if type.left then ([], spaces.2) else pad (if type.zeropad then zero else blank) 0 spaces.2
    spaces.1 = List.replicate (if type.zeropad || type.left then 0 else size.toNat) blank ∧
    padding.1 = List.replicate (if type.zeropad && !type.left then size.toNat else 0) zero ∧
    (pad blank 0 padding.2).1 = List.replicate (if type.left then size.toNat else 0) blank := by
  have none_ : (min size 0 - 1).toNat = 0 := by omega
  unfold Flags.loops at low
  cases left : type.left with
  | true =>
    rw [apart left]
    exact ⟨rfl, rfl, by simp [pad_eq]⟩
  | false =>
    rw [left, if_neg (by decide)] at low
    cases zeropad : type.zeropad with
    | true =>
      rw [zeropad, if_pos rfl] at low
      have rest : toInt32 (min size 0 - 1) = min size 0 - 1 := toInt32_fits (by omega) (by omega)
      exact ⟨rfl, by simp [pad_eq], by simp [pad_eq, rest, none_]⟩
    | false =>
      rw [zeropad, if_neg (by decide)] at low
      have rest : toInt32 (min size 0 - 1) = min size 0 - 1 := toInt32_fits (by omega) (by omega)
      have rest' : toInt32 (min size 0 - 1 - 1) = min size 0 - 1 - 1 :=
        toInt32_fits (by omega) (by omega)
      exact ⟨by simp [pad_eq], by simp [pad_eq, rest, none_], by simp [pad_eq, rest, rest']⟩

theorem layout_length (sign before numeral : List UInt8) :
    ((layout type sign before numeral size precision).length : Int) =
      max size (sign.length + before.length + max (numeral.length : Int) precision) := by
  unfold layout
  cases type.left <;> cases type.zeropad <;> simp <;> omega

def room (type : Flags) (num : BitVec 64) (base : Nat) (size precision : Int) : Int :=
  size - ((signText type num).length + (prefixChars type base).length +
    max ((numeral type.small base (printed type num)).length : Int) precision)

def laidOut (type : Flags) (num : BitVec 64) (base : Nat) (size precision : Int) : List UInt8 :=
  layout type (signText type num) (prefixChars type base) (numeral type.small base (printed type num))
    size precision

theorem base_valid (used : base = 8 ∨ base = 10 ∨ base = 16) : 2 ≤ base ∧ base ≤ 36 := by omega

theorem number_apart (used : base = 8 ∨ base = 10 ∨ base = 16) (size_small : |size| < 2 ^ 30)
    (apart : type.left = true → type.zeropad = false)
    (low : -(2 ^ 31) + type.loops ≤ room type num base size precision) :
    number num base size precision type = some (laidOut type num base size precision) := by
  have valid := base_valid used
  have range := abs_lt.mp size_small
  have same : (if type.left then { type with zeropad := false } else type) = type := by
    split
    · rename_i left
      have off := apart left
      cases type
      cases off
      rfl
    · rfl
  have long : (tmpOf type num base valid.1).length =
      (numeral type.small base (printed type num)).length := by
    rw [← tmpOf_reverse valid.1, List.length_reverse]
  have written : writeBack (tmpOf type num base valid.1)
      (numeral type.small base (printed type num)).length =
      numeral type.small base (printed type num) := by
    rw [← long, writeBack_reverse, tmpOf_reverse]
  have precision_eq : (if ((numeral type.small base (printed type num)).length : Int) > precision
      then ((numeral type.small base (printed type num)).length : Int) else precision) =
      max ((numeral type.small base (printed type num)).length : Int) precision := by
    split <;> omega
  have loops : 0 ≤ type.loops := by
    unfold Flags.loops
    split
    · exact Int.le_refl 0
    · split <;> decide
  unfold room at low
  have left_over := @sizeLeft_eq type num base size
    (max ((numeral type.small base (printed type num)).length : Int) precision) used size_small
    (by omega) (by omega)
  have zeros : (max ((numeral type.small base (printed type num)).length : Int) precision -
      (numeral type.small base (printed type num)).length).toNat =
      precision.toNat - (numeral type.small base (printed type num)).length := by omega
  have padding := @size_padding type _ apart low (by omega)
  unfold number
  simp only [same]
  rw [dif_pos valid]
  simp only [signText_eq, long, precision_eq, left_over]
  rw [padding.1, padding.2.1, padding.2.2, pad_eq, zeros, written]
  rfl

/- LEFT takes ZEROPAD away before anything looks at it. -/
theorem number_left (left : type.left = true) :
    number num base size precision type =
      number num base size precision { type with zeropad := false } := by
  unfold number
  rw [if_pos left, if_pos left]

/-- Where size can be counted down in an int, number writes the field it is asked for. -/
theorem number_laidOut (used : base = 8 ∨ base = 10 ∨ base = 16) (size_small : |size| < 2 ^ 30)
    (low : -(2 ^ 31) + type.loops ≤ room type num base size precision) :
    number num base size precision type = some (laidOut type num base size precision) := by
  cases left : type.left with
  | true =>
    have low' : -(2 ^ 31) + { type with zeropad := false }.loops ≤
        room { type with zeropad := false } num base size precision := by
      unfold Flags.loops at low ⊢
      rw [left] at low ⊢
      exact low
    rw [number_left left, number_apart used size_small (fun _ => rfl) low']
    unfold laidOut layout
    simp [left]
    rfl
  | false => exact number_apart used size_small (fun left' => by rw [left] at left'; cases left') low

end law

/-- A numeral in a field, with the law of its length, and within the bounds of tmp. -/
theorem number_layout (num : BitVec 64) {base : Nat} (used : base = 8 ∨ base = 10 ∨ base = 16)
    {size precision : Int} (size_small : |size| < 2 ^ 30) (type : Flags)
    (low : -(2 ^ 31) + type.loops ≤ room type num base size precision) :
    (∃ out, number num base size precision type = some out ∧
      out = laidOut type num base size precision ∧
      (out.length : Int) = max size ((signText type num).length + (prefixChars type base).length +
        max ((numeral type.small base (printed type num)).length : Int) precision)) ∧
    ∀ valid, (tmpOf type num base valid).length ≤ 50 := by
  refine ⟨⟨_, number_laidOut used size_small low, rfl, layout_length _ _ _⟩, fun valid => ?_⟩
  have wide : 8 ≤ base := by omega
  exact Nat.le_trans (tmpOf_length wide valid) (by decide)

def plusOnly : Flags := { Flags.none with plus := true }

theorem number_layout_zero :
    (∃ out, number 0 16 8 4 { plusOnly with special := true } = some out ∧
      out = laidOut { plusOnly with special := true } 0 16 8 4 ∧
      (out.length : Int) = max 8 ((signText { plusOnly with special := true } 0).length +
        (prefixChars { plusOnly with special := true } 16).length +
        max ((numeral false 16 (printed { plusOnly with special := true } 0)).length : Int) 4)) ∧
    ∀ valid, (tmpOf { plusOnly with special := true } 0 16 valid).length ≤ 50 :=
  number_layout 0 (Or.inr (Or.inr rfl)) (by decide) _ (by decide)

/- Two loops count size down past the least int, and the last one writes 2^31 - 1 spaces. -/
theorem number_wraps :
    |(-(2 ^ 30 - 1) : Int)| < 2 ^ 30 ∧ |(2 ^ 30 - 1 : Int)| < 2 ^ 30 ∧
    number 0 10 (-(2 ^ 30 - 1)) (2 ^ 30 - 1) plusOnly ≠
      some (laidOut plusOnly 0 10 (-(2 ^ 30 - 1)) (2 ^ 30 - 1)) := by
  refine ⟨by decide, by decide, fun same => ?_⟩
  have left_over : sizeLeft plusOnly 0 10 (-(2 ^ 30 - 1)) (2 ^ 30 - 1) = -(2 ^ 31) + 1 := by decide
  have valid : 2 ≤ 10 ∧ 10 ≤ 36 := by decide
  have once : (pad blank 0 (-(2 ^ 31) + 1)).2 = -(2 ^ 31) := by
    rw [pad_eq]
    decide
  have twice : (pad blank 0 (-(2 ^ 31))).2 = 2 ^ 31 - 1 := by
    rw [pad_eq]
    decide
  have last : (pad blank 0 (2 ^ 31 - 1)).1.length = 2 ^ 31 - 1 := by
    rw [pad_eq, List.length_replicate]
    decide
  have long := @layout_length plusOnly (-(2 ^ 30 - 1)) (2 ^ 30 - 1) (signText plusOnly 0)
    (prefixChars plusOnly 10) (numeral plusOnly.small 10 (printed plusOnly 0))
  have tmp : tmpOf plusOnly 0 10 valid.1 = [zero] := rfl
  have chosen : (if (([zero].length : Nat) : Int) > 2 ^ 30 - 1 then (([zero].length : Nat) : Int)
      else 2 ^ 30 - 1) = 2 ^ 30 - 1 := if_neg (by decide)
  have off : ¬ (plusOnly.zeropad || plusOnly.left) = true := by decide
  have right : ¬ plusOnly.left = true := by decide
  unfold number at same
  simp only [if_neg right] at same
  rw [dif_pos valid] at same
  simp only [tmp, chosen, left_over, if_neg off, once] at same
  have color : (if plusOnly.zeropad = true then zero else blank) = blank := rfl
  rw [color, twice] at same
  have counted := congrArg List.length (Option.some.inj same)
  rw [List.length_append, last] at counted
  have least : 2 ^ 31 - 1 ≤ (laidOut plusOnly 0 10 (-(2 ^ 30 - 1)) (2 ^ 30 - 1)).length :=
    Nat.le_trans (Nat.le_add_left _ _) (Nat.le_of_eq counted)
  have longest : max (-(2 ^ 30 - 1)) (((signText plusOnly 0).length : Int) +
      (prefixChars plusOnly 10).length + max ((numeral plusOnly.small 10 (printed plusOnly 0)).length : Int)
        (2 ^ 30 - 1)) = 2 ^ 30 := by decide
  rw [longest] at long
  unfold laidOut at least
  clear counted same once twice last left_over
  generalize (layout plusOnly (signText plusOnly 0) (prefixChars plusOnly 10)
    (numeral plusOnly.small 10 (printed plusOnly 0)) (-(2 ^ 30 - 1)) (2 ^ 30 - 1)).length = all
    at least long
  omega

end Printk

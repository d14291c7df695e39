import Mathlib.Algebra.Group.Nat.Defs
import Mathlib.Data.List.DropRight

/- A stream of bytes read by the conversions of fscanf and by fgets. -/
namespace Scanf

/- The bytes not read yet, and feof: whether a read has met their end. -/
structure Stream where
  rest : List UInt8
  feof : Bool

def newline : UInt8 := 0x0a

def isSpace (c : UInt8) : Bool := c = 0x20 || (0x09 ≤ c && c ≤ 0x0d)

def skipSpace (f : Stream) : Stream :=
  let rest := f.rest.dropWhile isSpace
  ⟨rest, f.feof || rest.isEmpty⟩

def hexDigit (c : UInt8) : Option Nat :=
  if 0x30 ≤ c ∧ c ≤ 0x39 then some (c.toNat - 0x30)
  else if 0x61 ≤ c ∧ c ≤ 0x66 then some (c.toNat - 0x61 + 10)
  else if 0x41 ≤ c ∧ c ≤ 0x46 then some (c.toNat - 0x41 + 10)
  else none

def digits : Nat → List UInt8 → Nat × List UInt8
  | value, [] => (value, [])
  | value, c :: rest =>
    match hexDigit c with
    | some d => digits (value * 16 + d) rest
    | none => (value, c :: rest)

def afterSign : List UInt8 → List UInt8
  | [] => []
  | c :: rest => if c = 0x2b ∨ c = 0x2d then rest else c :: rest

def afterPrefix : List UInt8 → List UInt8
  | zero :: x :: rest => if zero = 0x30 ∧ (x = 0x78 ∨ x = 0x58) then rest else zero :: x :: rest
  | rest => rest

/- A number too large is cut to the largest; a sign is applied in the word. -/
def strtoul (negative : Bool) (value : Nat) : Nat :=
  if 2 ^ 64 ≤ value then 2 ^ 64 - 1
  else if negative then (2 ^ 64 - value) % 2 ^ 64
  else value

/- What a conversion comes to; ended is a read that met the end before anything matched. -/
inductive Conversion (α : Type) where
  | value (a : α) (f : Stream)
  | mismatch (f : Stream)
  | ended (f : Stream)

def Conversion.stream {α : Type} : Conversion α → Stream
  | .value _ f | .mismatch f | .ended f => f

/- %lx: a sign or 0x without a digit is read and does not match. -/
def scanHex (f : Stream) : Conversion Nat :=
  let f := skipSpace f
  if f.rest = [] then .ended f
  else
    let body := afterPrefix (afterSign f.rest)
    let read := digits 0 body
    if read.2.length = body.length then .mismatch ⟨body, body.isEmpty⟩
    else .value (strtoul (f.rest.head? = some 0x2d) read.1) ⟨read.2, read.2.isEmpty⟩

def scanChar (f : Stream) : Conversion UInt8 :=
  match f.rest with
  | [] => .ended ⟨[], true⟩
  | c :: rest => .value c ⟨rest, f.feof⟩

/- %<width>s -/
def scanWord (width : Nat) (f : Stream) : Conversion (List UInt8) :=
  let f := skipSpace f
  if f.rest = [] then .ended f
  else
    let word := (f.rest.take width).takeWhile fun c => ¬ isSpace c
    let rest := f.rest.drop word.length
    .value word ⟨rest, rest.isEmpty && decide (word.length < width)⟩

/- The stream behind fgets with room for n characters and the NUL. -/
def fgets : Nat → Stream → Stream
  | 0, f => f
  | n + 1, f =>
    match f.rest with
    | [] => ⟨[], true⟩
    | c :: rest => if c = newline then ⟨rest, f.feof⟩ else fgets n ⟨rest, f.feof⟩

def Graphic (c : UInt8) : Prop := isSpace c = false

instance (c : UInt8) : Decidable (Graphic c) := inferInstanceAs (Decidable (_ = _))

theorem newline_space : isSpace newline = true := by decide

def hexChar (d : Nat) : UInt8 := if d < 10 then 0x30 + d.toUInt8 else 0x57 + d.toUInt8

def hexText : Nat → Nat → List UInt8
  | 0, _ => []
  | n + 1, value => hexText n (value / 16) ++ [hexChar (value % 16)]

theorem hexDigit_char {d : Nat} (small : d < 16) : hexDigit (hexChar d) = some d := by
  revert d
  decide

theorem hexChar_graphic {d : Nat} (small : d < 16) : Graphic (hexChar d) := by
  revert d
  decide

theorem hexText_length (n value : Nat) : (hexText n value).length = n := by
  induction n generalizing value with
  | zero => rfl
  | succ n ih =>
    rw [hexText, List.length_append, ih]
    rfl

theorem hexText_char {n value : Nat} {c : UInt8} (member : c ∈ hexText n value) :
    ∃ d, d < 16 ∧ c = hexChar d := by
  induction n generalizing value with
  | zero => cases member
  | succ n ih =>
    rcases List.mem_append.mp member with before | last
    · exact ih before
    · exact ⟨value % 16, Nat.mod_lt _ (by decide), List.mem_singleton.mp last⟩

theorem hexText_first {n : Nat} (some_digit : 0 < n) (value : Nat) :
    ∃ d text, d < 16 ∧ hexText n value = hexChar d :: text := by
  obtain ⟨c, text, found⟩ :=
    List.exists_cons_of_length_pos (Nat.lt_of_lt_of_eq some_digit (hexText_length n value).symm)
  obtain ⟨d, small, rfl⟩ := hexText_char (found ▸ List.mem_cons_self)
  exact ⟨d, text, small, found⟩

theorem digits_stop {value : Nat} {c : UInt8} {rest : List UInt8} (no_digit : hexDigit c = none) :
    digits value (c :: rest) = (value, c :: rest) := by
  rw [digits, no_digit]

theorem digits_text (n value before : Nat) (rest : List UInt8) :
    digits before (hexText n value ++ rest) = digits (before * 16 ^ n + value % 16 ^ n) rest := by
  induction n generalizing value rest with
  | zero => rw [hexText, List.nil_append, Nat.pow_zero, Nat.mod_one, Nat.mul_one, Nat.add_zero]
  | succ n ih =>
    have last := hexDigit_char (Nat.mod_lt value (show 0 < 16 by decide))
    have joined : (before * 16 ^ n + value / 16 % 16 ^ n) * 16 + value % 16 =
        before * 16 ^ (n + 1) + value % 16 ^ (n + 1) := by
      rw [Nat.pow_succ', Nat.mod_mul, Nat.add_mul, Nat.mul_comm 16 (16 ^ n), Nat.mul_assoc,
        Nat.mul_comm _ 16]
      omega
    rw [hexText, List.append_assoc, ih, List.singleton_append, digits, last]
    dsimp only
    rw [joined]

theorem skipSpace_space {blanks rest : List UInt8} {feof : Bool}
    (blank : ∀ c ∈ blanks, isSpace c = true) :
    skipSpace ⟨blanks ++ rest, feof⟩ = skipSpace ⟨rest, feof⟩ := by
  unfold skipSpace
  dsimp only
  rw [List.dropWhile_append_of_pos blank]

theorem skipSpace_twice (f : Stream) : skipSpace (skipSpace f) = skipSpace f := by
  unfold skipSpace
  dsimp only
  rw [List.dropWhile_idempotent, Bool.or_assoc, Bool.or_self]

theorem scanHex_skip (f : Stream) : scanHex (skipSpace f) = scanHex f := by
  unfold scanHex
  rw [skipSpace_twice]

theorem skipSpace_graphic {c : UInt8} {rest : List UInt8} {feof : Bool} (graphic : Graphic c) :
    skipSpace ⟨c :: rest, feof⟩ = ⟨c :: rest, feof⟩ := by
  unfold skipSpace
  rw [List.dropWhile_cons_of_neg (by rw [graphic]; decide)]
  cases feof <;> rfl

theorem skipSpace_one {blank c : UInt8} {rest : List UInt8} {feof : Bool}
    (space : isSpace blank = true) (graphic : Graphic c) :
    skipSpace ⟨blank :: c :: rest, feof⟩ = ⟨c :: rest, feof⟩ :=
  (@skipSpace_space [blank] (c :: rest) feof fun _ member =>
    List.mem_singleton.mp member ▸ space).trans (skipSpace_graphic graphic)

/- A word that ends where a blank follows. -/
theorem scanWord_word {width : Nat} {word rest : List UInt8} {blank : UInt8} {feof : Bool}
    (some_char : word ≠ []) (graphic : ∀ c ∈ word, Graphic c) (fits : word.length ≤ width)
    (space : isSpace blank = true) :
    scanWord width ⟨word ++ blank :: rest, feof⟩ = .value word ⟨blank :: rest, false⟩ := by
  have kept : skipSpace ⟨word ++ blank :: rest, feof⟩ = ⟨word ++ blank :: rest, feof⟩ := by
    cases word with
    | nil => exact absurd rfl some_char
    | cons c word => exact skipSpace_graphic (graphic c List.mem_cons_self)
  have room : (word ++ blank :: rest).take width =
      word ++ (blank :: rest).take (width - word.length) := by
    rw [List.take_append, List.take_of_length_le fits]
  have stops :
      ((blank :: rest).take (width - word.length)).takeWhile (fun c => ¬ isSpace c) = [] := by
    cases width - word.length with
    | zero => rfl
    | succ n => exact List.takeWhile_cons_of_neg (by rw [space]; decide)
  have chars : ∀ c ∈ word, decide (¬ isSpace c = true) = true := by
    intro c member
    rw [graphic c member]
    rfl
  unfold scanWord
  dsimp only
  rw [kept, if_neg (by simp), room, List.takeWhile_append_of_pos chars, stops, List.append_nil,
    List.drop_left]
  rfl

def startsNumber (text : List UInt8) : Bool :=
  (afterSign text).head?.any fun c => (hexDigit c).isSome

theorem hexChar_plain {d : Nat} (small : d < 16) :
    hexChar d ≠ 0x2b ∧ hexChar d ≠ 0x2d ∧ hexChar d ≠ 0x78 ∧ hexChar d ≠ 0x58 := by
  revert d
  decide

theorem scanHex_text {n value : Nat} {rest : List UInt8} {feof : Bool} (some_digit : 0 < n)
    (fits : value < 16 ^ n) (word : value < 2 ^ 64) :
    scanHex ⟨hexText n value ++ 0x20 :: rest, feof⟩ = .value value ⟨0x20 :: rest, false⟩ := by
  have read := digits_text n value 0 (0x20 :: rest)
  rw [Nat.zero_mul, Nat.zero_add, Nat.mod_eq_of_lt fits, digits_stop (by decide)] at read
  have length := hexText_length n value
  have chars := @hexText_char n value
  generalize hexText n value = text at read length chars
  obtain ⟨c, text, rfl⟩ := List.exists_cons_of_length_pos (length ▸ some_digit)
  obtain ⟨d, small, rfl⟩ := chars List.mem_cons_self
  have sign : afterSign (hexChar d :: (text ++ 0x20 :: rest)) =
      hexChar d :: (text ++ 0x20 :: rest) :=
    if_neg fun either => either.elim (hexChar_plain small).1 (hexChar_plain small).2.1
  have bare : afterPrefix (hexChar d :: (text ++ 0x20 :: rest)) =
      hexChar d :: (text ++ 0x20 :: rest) := by
    cases text with
    | nil => exact if_neg fun both => absurd both.2 (by decide)
    | cons x text =>
      obtain ⟨e, small, rfl⟩ := chars (List.mem_cons_of_mem _ List.mem_cons_self)
      exact if_neg fun both => both.2.elim (hexChar_plain small).2.2.1 (hexChar_plain small).2.2.2
  have positive : decide (some (hexChar d) = some 0x2d) = false :=
    decide_eq_false fun same => (hexChar_plain small).2.1 (Option.some.inj same)
  unfold scanHex
  rw [List.cons_append, skipSpace_graphic (hexChar_graphic small)]
  dsimp only
  rw [sign, bare, if_neg (List.cons_ne_nil _ _), ← List.cons_append, read, if_neg]
  · rw [List.cons_append, List.head?_cons, positive, strtoul, if_neg (Nat.not_le.mpr word)]
    rfl
  · rw [List.length_append, length, List.length_cons]
    omega

theorem afterSign_cons (c : UInt8) :
    (∀ rest, afterSign (c :: rest) = rest) ∨ ∀ rest, afterSign (c :: rest) = c :: rest := by
  by_cases sign : c = 0x2b ∨ c = 0x2d
  · exact Or.inl fun _ => if_pos sign
  · exact Or.inr fun _ => if_neg sign

theorem startsNumber_newline {c : UInt8} {text rest : List UInt8}
    (no_number : startsNumber (c :: text) = false) :
    startsNumber (c :: (text ++ newline :: rest)) = false := by
  unfold startsNumber at no_number ⊢
  rcases afterSign_cons c with sign | kept
  · rw [sign] at no_number ⊢
    cases text with
    | nil => rfl
    | cons d text => exact no_number
  · rw [kept] at no_number ⊢
    exact no_number

theorem scanHex_mismatch {c : UInt8} {rest : List UInt8} {feof : Bool} (graphic : Graphic c)
    (no_number : startsNumber (c :: rest) = false) : scanHex ⟨c :: rest, feof⟩ =
      .mismatch ⟨afterSign (c :: rest), (afterSign (c :: rest)).isEmpty⟩ := by
  unfold scanHex
  rw [skipSpace_graphic graphic]
  dsimp only
  unfold startsNumber at no_number
  generalize afterSign (c :: rest) = body at no_number
  rw [if_neg (List.cons_ne_nil _ _)]
  cases body with
  | nil => rfl
  | cons d body =>
    have no_digit : hexDigit d = none := by simpa using no_number
    have bare : afterPrefix (d :: body) = d :: body := by
      cases body with
      | nil => rfl
      | cons x body =>
        refine if_neg fun both => ?_
        rw [both.1] at no_digit
        cases no_digit
    rw [bare, digits_stop no_digit, if_pos rfl]

theorem fgets_line {n : Nat} {line rest : List UInt8} {feof : Bool} (inside : newline ∉ line)
    (fits : line.length < n) : fgets n ⟨line ++ newline :: rest, feof⟩ = ⟨rest, feof⟩ := by
  induction line generalizing n with
  | nil =>
    cases n with
    | zero => exact absurd fits (Nat.not_lt_zero _)
    | succ n => rfl
  | cons c line ih =>
    cases n with
    | zero => exact absurd fits (Nat.not_lt_zero _)
    | succ n =>
      have other : c ≠ newline := fun same => inside (same ▸ List.mem_cons_self)
      rw [List.cons_append, fgets]
      dsimp only
      rw [if_neg other]
      exact ih (fun member => inside (List.mem_cons_of_mem _ member)) (Nat.lt_of_succ_lt_succ fits)

theorem fgets_full {line rest : List UInt8} {feof : Bool} (inside : newline ∉ line) :
    fgets line.length ⟨line ++ rest, feof⟩ = ⟨rest, feof⟩ := by
  induction line with
  | nil => rfl
  | cons c line ih =>
    have other : c ≠ newline := fun same => inside (same ▸ List.mem_cons_self)
    rw [List.cons_append, List.length_cons, fgets]
    dsimp only
    rw [if_neg other]
    exact ih fun member => inside (List.mem_cons_of_mem _ member)

theorem digits_length (value : Nat) (text : List UInt8) :
    (digits value text).2.length ≤ text.length := by
  induction text generalizing value with
  | nil => exact Nat.le_refl 0
  | cons c text ih =>
    unfold digits
    split
    · exact Nat.le_succ_of_le (ih _)
    · exact Nat.le_refl _

theorem afterSign_length (text : List UInt8) : (afterSign text).length ≤ text.length := by
  cases text with
  | nil => exact Nat.le_refl 0
  | cons c text =>
    rcases afterSign_cons c with sign | kept
    · rw [sign]
      exact Nat.le_succ _
    · rw [kept]

theorem afterPrefix_length (text : List UInt8) : (afterPrefix text).length ≤ text.length := by
  unfold afterPrefix
  split
  · split
    · exact Nat.le_add_right _ 2
    · exact Nat.le_refl _
  · exact Nat.le_refl _

theorem skipSpace_length (f : Stream) : (skipSpace f).rest.length ≤ f.rest.length :=
  (List.dropWhile_sublist _).length_le

theorem scanChar_length (f : Stream) : (scanChar f).stream.rest.length ≤ f.rest.length := by
  unfold scanChar
  split
  · exact Nat.zero_le _
  · next text =>
    rw [text]
    exact Nat.le_succ _

theorem scanWord_length (width : Nat) (f : Stream) :
    (scanWord width f).stream.rest.length ≤ f.rest.length := by
  unfold scanWord
  dsimp only
  split
  · exact skipSpace_length f
  · exact Nat.le_trans (List.drop_sublist _ _).length_le (skipSpace_length f)

theorem fgets_length (n : Nat) (f : Stream) : (fgets n f).rest.length ≤ f.rest.length := by
  induction n generalizing f with
  | zero => exact Nat.le_refl _
  | succ n ih =>
    unfold fgets
    split
    · exact Nat.zero_le _
    · next text =>
      rw [text]
      split
      · exact Nat.le_succ _
      · exact Nat.le_succ_of_le (ih _)

/- The end is met or a character is read. -/
def Progress (f g : Stream) : Prop := g.feof = true ∨ g.rest.length < f.rest.length

theorem fgets_progress (n : Nat) (f : Stream) : Progress f (fgets (n + 1) f) := by
  unfold fgets
  split
  · exact Or.inl rfl
  · next text =>
    right
    rw [text]
    split
    · exact Nat.lt_succ_self _
    · exact Nat.lt_succ_of_le (fgets_length _ _)

theorem scanHex_ended {f g : Stream} (scanned : scanHex f = .ended g) : g.feof = true := by
  unfold scanHex at scanned
  dsimp only at scanned
  split at scanned
  · next empty =>
    cases scanned
    unfold skipSpace at empty ⊢
    dsimp only at empty ⊢
    rw [empty]
    exact Bool.or_true _
  · split at scanned <;> cases scanned

theorem scanHex_length (f : Stream) : (scanHex f).stream.rest.length ≤ f.rest.length := by
  have body : (afterPrefix (afterSign (skipSpace f).rest)).length ≤ f.rest.length :=
    Nat.le_trans (afterPrefix_length _) (Nat.le_trans (afterSign_length _) (skipSpace_length f))
  unfold scanHex
  dsimp only
  split
  · exact skipSpace_length f
  · split
    · exact body
    · exact Nat.le_trans (digits_length _ _) body

theorem scanHex_value {f g : Stream} {value : Nat} (scanned : scanHex f = .value value g) :
    g.rest.length < f.rest.length := by
  have body : (afterPrefix (afterSign (skipSpace f).rest)).length ≤ f.rest.length :=
    Nat.le_trans (afterPrefix_length _) (Nat.le_trans (afterSign_length _) (skipSpace_length f))
  unfold scanHex at scanned
  dsimp only at scanned
  split at scanned
  · cases scanned
  · split at scanned
    · cases scanned
    · next some_digit =>
      cases scanned
      have shorter := digits_length 0 (afterPrefix (afterSign (skipSpace f).rest))
      exact Nat.lt_of_lt_of_le (Nat.lt_of_le_of_ne shorter some_digit) body

end Scanf

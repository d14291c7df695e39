import Q2os.NameMatching
import Mathlib.Data.List.Basic

/- An entry and the name FAT32_readdir spells for it: when that name looks like the entry. -/
namespace NameMatching
open ByteMemory Fat32

/- A character and its spelling compare equal: a letter stays below 128, a digit is not
   raised by the case flag. -/
structure SpelledSame (v : View) (p : Int) (flag x : Nat) : Prop where
  letter : isLetter (dirName v p x) → letterAt v p flag x < 128
  digit : isDigit (dirName v p x) → dirNTRes v p &&& flag = 0

/- Both parts of the 8.3 name have their blanks at the end. -/
structure Padded (v : View) (p : Int) : Prop where
  base : ∀ y < 8, ∀ x < y, dirName v p x = 0x20 → dirName v p y = 0x20
  ext : ∀ y < 11, ∀ x < y, 8 ≤ x → dirName v p x = 0x20 → dirName v p y = 0x20

/-- What the comparison asks of an 8.3 name spelled by FAT32_readdir. A file needs three
    letters or digits behind the dot; without an extension its base name has to be full, and
    then three bytes behind the 0 of the component are compared with the extension. -/
structure OwnShort (v : View) (p : Int) (d : Component) : Prop where
  base : ∀ x < 8, SpelledSame v p lowercaseBase x
  ext : isDirectory v p = false → dirName v p 8 ≠ 0x20 →
    ∀ x < 3, (isLetter (dirName v p (8 + x)) ∨ isDigit (dirName v p (8 + x))) ∧
      SpelledSame v p lowercaseExt (8 + x)
  bare : isDirectory v p = false → dirName v p 8 = 0x20 →
    (∀ x < 8, dirName v p x ≠ 0x20) ∧ ∀ x < 3, ExtFits v p d (8 + x) (9 + x)

theorem text_char {d : Component} {text : List UInt8} (named : d.text = text) :
    d.nameLength = text.length ∧ ∀ i c, text[i]? = some c → d.name i = c := by
  have length := congrArg List.length named
  rw [Component.text, slice_length] at length
  refine ⟨length, fun i c at_ => ?_⟩
  have within : i < d.nameLength := by
    rw [length]
    exact (List.getElem?_eq_some_iff.mp at_).1
  rw [← named, Component.text, slice_get _ _ _ _ within, Nat.zero_add] at at_
  exact Option.some.inj at_

theorem shortPart_get (v : View) (p : Int) (flag left x i : Nat)
    (within : i < (shortPart v p flag left x).length) :
    dirName v p (x + i) ≠ 0x20 ∧
      (shortPart v p flag left x)[i]? = some (UInt8.ofNat (letterAt v p flag (x + i))) := by
  induction left generalizing x i with
  | zero => simp [shortPart] at within
  | succ left ih =>
    by_cases blank : dirName v p x = 0x20
    · simp [shortPart, blank] at within
    · have part : shortPart v p flag (left + 1) x =
          UInt8.ofNat (letterAt v p flag x) :: shortPart v p flag left (x + 1) := by
        simp [shortPart, blank, letterAt]
      rw [part] at within ⊢
      cases i with
      | zero => exact ⟨blank, rfl⟩
      | succ i =>
        have rest := ih (x + 1) i (by simpa using within)
        have shift : x + (i + 1) = x + 1 + i := by omega
        rw [shift]
        exact rest

theorem shortPart_end (v : View) (p : Int) (flag left x : Nat) :
    (shortPart v p flag left x).length ≤ left ∧
      ((shortPart v p flag left x).length < left →
        dirName v p (x + (shortPart v p flag left x).length) = 0x20) := by
  induction left generalizing x with
  | zero => simp [shortPart]
  | succ left ih =>
    by_cases blank : dirName v p x = 0x20
    · simp [shortPart, blank]
    · obtain ⟨bound, ends⟩ := ih (x + 1)
      have part : (shortPart v p flag (left + 1) x).length =
          (shortPart v p flag left (x + 1)).length + 1 := by
        simp [shortPart, blank]
      rw [part]
      refine ⟨by omega, fun short => ?_⟩
      have shift : x + ((shortPart v p flag left (x + 1)).length + 1) =
          x + 1 + (shortPart v p flag left (x + 1)).length := by omega
      rw [shift]
      exact ends (by omega)

theorem signed_letter {v : View} {p : Int} {flag x : Nat} (letter : isLetter (dirName v p x) = true) :
    signedChar (UInt8.ofNat (letterAt v p flag x)) = letterAt v p flag x ↔
      letterAt v p flag x < 128 := by
  have bounds := letter_bounds.mp letter
  have small : letterAt v p flag x < 256 := by
    unfold letterAt
    split
    · omega
    · omega
  have char : (UInt8.ofNat (letterAt v p flag x)).toNat = letterAt v p flag x := by
    rw [UInt8.toNat_ofNat']
    omega
  simp only [signedChar, char]
  split
  · omega
  · omega

theorem signed_digit {v : View} {p : Int} {flag x : Nat} (digit : isDigit (dirName v p x) = true) :
    signedChar (UInt8.ofNat (letterAt v p flag x)) = dirName v p x ↔
      dirNTRes v p &&& flag = 0 := by
  have bounds := digit_bounds.mp digit
  unfold letterAt
  by_cases flagged : dirNTRes v p &&& flag = 0
  · have char : (UInt8.ofNat (dirName v p x)).toNat = dirName v p x := by
      rw [UInt8.toNat_ofNat']
      omega
    have low : dirName v p x < 128 := by omega
    simp [flagged, signedChar, char, low]
  · have char : (UInt8.ofNat (dirName v p x + 32)).toNat = dirName v p x + 32 := by
      rw [UInt8.toNat_ofNat']
      omega
    simp only [ne_eq, flagged, not_false_eq_true, ↓reduceIte, signedChar, char, iff_false]
    split
    · omega
    · omega

theorem comparedAt_solid {v : View} {p : Int} {d : Component} {b : Nat}
    (solid : ∀ x < b, dirName v p x ≠ 0x20) {x : Nat} (before : x ≤ b) :
    comparedAt v p d x = x := by
  induction x with
  | zero => rfl
  | succ x ih =>
    have moves := stays_solid (d := d) (j := comparedAt v p d x) (solid x (by omega))
    have next : comparedAt v p d (x + 1) = comparedAt v p d x + 1 := if_neg moves
    rw [next, ih (by omega)]

theorem comparedAt_blank {v : View} {p : Int} {d : Component} {b x : Nat}
    (start : comparedAt v p d b = b) (blank : ∀ y, b ≤ y → y < x → Stays v p d y b)
    (after : b ≤ x) : comparedAt v p d x = b := by
  induction x with
  | zero => rw [← start, Nat.le_zero.mp after]
  | succ x ih =>
    by_cases here : b = x + 1
    · rw [← here, start]
    · have at_ := ih (fun y low high => blank y low (by omega)) (by omega)
      have stays := blank x (by omega) (by omega)
      have next : comparedAt v p d (x + 1) =
          if Stays v p d x (comparedAt v p d x) then comparedAt v p d x
          else comparedAt v p d x + 1 := rfl
      rw [next, at_, if_pos stays]

structure BaseSpelled (v : View) (p : Int) (d : Component) (b : Nat) : Prop where
  bound : b ≤ 8
  within : b ≤ d.nameLength
  solid : ∀ x < b, dirName v p x ≠ 0x20
  spelled : ∀ x < b, d.name x = UInt8.ofNat (letterAt v p lowercaseBase x)
  blank : ∀ x, b ≤ x → x < 8 → dirName v p x = 0x20

theorem base_spelled {v : View} {p : Int} {d : Component} (padded : Padded v p)
    {rest : List UInt8} (named : d.text = shortPart v p lowercaseBase 8 0 ++ rest) :
    BaseSpelled v p d (shortPart v p lowercaseBase 8 0).length := by
  obtain ⟨length, char⟩ := text_char named
  obtain ⟨bound, ends⟩ := shortPart_end v p lowercaseBase 8 0
  have get := fun x => shortPart_get v p lowercaseBase 8 0 x
  simp only [Nat.zero_add] at get ends
  refine ⟨bound, ?_, fun x within => (get x within).1, fun x within => ?_, fun x low high => ?_⟩
  · rw [length, List.length_append]
    omega
  · apply char x
    rw [List.getElem?_append_left within]
    exact (get x within).2
  · by_cases here : x = (shortPart v p lowercaseBase 8 0).length
    · rw [here]
      exact ends (by omega)
    · exact padded.base x high _ (by omega) (ends (by omega))

theorem base_fits_iff {v : View} {p : Int} {d : Component} {b x : Nat}
    (base : BaseSpelled v p d b) (before : x < b) :
    BaseFits v p d x x ↔ SpelledSame v p lowercaseBase x := by
  have within := base.within
  have solid := base.solid x before
  have char := base.spelled x before
  constructor
  · intro fits
    refine ⟨fun letter => ?_, fun digit => ?_⟩
    · have same := (fits.letter letter).2
      rw [char] at same
      exact (signed_letter letter).mp same
    · have same := (fits.digit digit).2
      rw [char] at same
      exact (signed_digit digit).mp same
  · intro same
    refine ⟨fun blank => absurd blank solid, fun letter => ⟨by omega, ?_⟩,
      fun digit => ⟨by omega, ?_⟩⟩
    · rw [char]
      exact (signed_letter letter).mpr (same.letter letter)
    · rw [char]
      exact (signed_digit digit).mpr (same.digit digit)

theorem spelledSame_blank {v : View} {p : Int} {flag x : Nat} (blank : dirName v p x = 0x20) :
    SpelledSame v p flag x :=
  ⟨fun letter => absurd blank (letter_kind letter).1,
    fun digit => absurd blank (digit_kind digit).1⟩

theorem base_all_fit {v : View} {p : Int} {d : Component} {b : Nat} (base : BaseSpelled v p d b)
    (stays : ∀ x, b ≤ x → x < 8 → Stays v p d x b) :
    comparedAt v p d 8 = b ∧ ((∀ x < 8, BaseFits v p d x (comparedAt v p d x)) ↔
      ∀ x < 8, SpelledSame v p lowercaseBase x) := by
  have bound := base.bound
  have start := comparedAt_solid (d := d) base.solid (Nat.le_refl b)
  have later : ∀ x, b ≤ x → x ≤ 8 → comparedAt v p d x = b := fun x low high =>
    comparedAt_blank start (fun y after before => stays y after (by omega)) low
  refine ⟨later 8 bound (Nat.le_refl 8), forall_congr' fun x => ?_⟩
  by_cases before : x < b
  · rw [comparedAt_solid (d := d) base.solid (Nat.le_of_lt before), base_fits_iff base before]
  · constructor
    · intro _ high
      exact spelledSame_blank (base.blank x (by omega) high)
    · intro _ high
      have blank := base.blank x (by omega) high
      rw [later x (by omega) (by omega), baseFits_blank blank]
      exact Or.inl (stays x (by omega) high)

theorem own_directory {v : View} {p : Int} {d : Component} (padded : Padded v p)
    (directory : isDirectory v p = true) (named : d.text = shortName v p) :
    ShortFits v p d ↔ OwnShort v p d := by
  have text : d.text = shortPart v p lowercaseBase 8 0 ++ [] := by
    simp [named, shortName, directory]
  have base := base_spelled padded text
  have length : d.nameLength = (shortPart v p lowercaseBase 8 0).length := by
    simpa using (text_char text).1
  have fits := (base_all_fit base fun x low high => by
    simpa [Stays, base.blank x low high, directory] using length.symm).2
  constructor
  · intro short
    exact ⟨fits.mp short.1, fun file => by simp [directory] at file,
      fun file => by simp [directory] at file⟩
  · intro own
    exact ⟨fits.mpr own.base, fun file => by simp [directory] at file⟩

/- Without an extension the blanks of a base name shorter than 8 meet the 0 of the component. -/
theorem own_bare {v : View} {p : Int} {d : Component} (padded : Padded v p)
    (file : isDirectory v p = false) (bare : dirName v p 8 = 0x20)
    (named : d.text = shortName v p) : ShortFits v p d ↔ OwnShort v p d := by
  have text : d.text = shortPart v p lowercaseBase 8 0 ++ [] := by
    simp [named, shortName, file, bare]
  have base := base_spelled padded text
  have length : d.nameLength = (shortPart v p lowercaseBase 8 0).length := by
    simpa using (text_char text).1
  generalize (shortPart v p lowercaseBase 8 0).length = b at base length
  have bound := base.bound
  by_cases full : b = 8
  · rw [full] at base
    have fits := base_all_fit base fun x low high => by omega
    constructor
    · intro short
      have ext := short.2 file
      rw [fits.1] at ext
      exact ⟨fits.2.mp short.1, fun _ solid => absurd bare solid, fun _ _ => ⟨base.solid, ext⟩⟩
    · intro own
      have ext := (own.bare file bare).2
      refine ⟨fits.2.mpr own.base, fun _ => ?_⟩
      rw [fits.1]
      exact ext
  · have blank := base.blank b (Nat.le_refl b) (by omega)
    constructor
    · intro short
      have here := short.1 b (by omega)
      rw [comparedAt_solid (d := d) base.solid (Nat.le_refl b), baseFits_blank blank] at here
      have zero : d.name b = 0 := by
        rw [← length]
        exact d.terminated
      simp [Stays, file, zero, signedChar] at here
    · intro own
      exact absurd blank ((own.bare file bare).1 b (by omega))

structure ExtSpelled (v : View) (p : Int) (d : Component) (b e : Nat) : Prop where
  bound : e ≤ 3
  ends : d.nameLength = b + 1 + e
  dot : d.name b = 0x2e
  solid : ∀ x < e, dirName v p (8 + x) ≠ 0x20
  spelled : ∀ x < e, d.name (b + 1 + x) = UInt8.ofNat (letterAt v p lowercaseExt (8 + x))
  blank : e < 3 → dirName v p (8 + e) = 0x20

theorem ext_spelled {v : View} {p : Int} {d : Component}
    (named : d.text = shortPart v p lowercaseBase 8 0 ++
      0x2e :: shortPart v p lowercaseExt 3 8) :
    ExtSpelled v p d (shortPart v p lowercaseBase 8 0).length
      (shortPart v p lowercaseExt 3 8).length := by
  obtain ⟨length, char⟩ := text_char named
  obtain ⟨bound, ends⟩ := shortPart_end v p lowercaseExt 3 8
  have get := fun x => shortPart_get v p lowercaseExt 3 8 x
  refine ⟨bound, ?_, ?_, fun x within => (get x within).1, fun x within => ?_, ends⟩
  · rw [length, List.length_append, List.length_cons]
    omega
  · apply char
    rw [List.getElem?_append_right (Nat.le_refl _), Nat.sub_self]
    rfl
  · apply char
    have shift : (shortPart v p lowercaseBase 8 0).length + 1 + x -
        (shortPart v p lowercaseBase 8 0).length = x + 1 := by omega
    rw [List.getElem?_append_right (by omega), shift, List.getElem?_cons_succ]
    exact (get x within).2

/- All three characters of the extension have to be there, letters or digits. -/
theorem ext_all_fit {v : View} {p : Int} {d : Component} {b e : Nat}
    (ext : ExtSpelled v p d b e) :
    (∀ x < 3, ExtFits v p d (8 + x) (b + 1 + x)) ↔
      ∀ x < 3, (isLetter (dirName v p (8 + x)) ∨ isDigit (dirName v p (8 + x))) ∧
        SpelledSame v p lowercaseExt (8 + x) := by
  have bound := ext.bound
  constructor
  · intro fits x within
    have whole : ¬ e < 3 := by
      intro short
      have blank := (fits e short).blank (ext.blank short)
      have zero : d.name (b + 1 + e) = 0 := by
        rw [← ext.ends]
        exact d.terminated
      simp [zero, signedChar] at blank
    have solid := ext.solid x (by omega)
    have char := ext.spelled x (by omega)
    refine ⟨(fits x within).other.resolve_left solid, fun letter => ?_, fun digit => ?_⟩
    · have same := (fits x within).letter letter
      rw [char] at same
      exact (signed_letter letter).mp same
    · have same := (fits x within).digit digit
      rw [char] at same
      exact (signed_digit digit).mp same
  · intro own x within
    have whole : ¬ e < 3 := by
      intro short
      rcases (own e short).1 with letter | digit
      · exact (letter_kind letter).1 (ext.blank short)
      · exact (digit_kind digit).1 (ext.blank short)
    have solid := ext.solid x (by omega)
    have char := ext.spelled x (by omega)
    obtain ⟨kind, same⟩ := own x within
    refine ⟨fun blank => absurd blank solid, fun letter => ?_, fun digit => ?_, Or.inr kind⟩
    · rw [char]
      exact (signed_letter letter).mpr (same.letter letter)
    · rw [char]
      exact (signed_digit digit).mpr (same.digit digit)

theorem own_extended {v : View} {p : Int} {d : Component} (padded : Padded v p)
    (file : isDirectory v p = false) (extended : dirName v p 8 ≠ 0x20)
    (named : d.text = shortName v p) : ShortFits v p d ↔ OwnShort v p d := by
  have text : d.text = shortPart v p lowercaseBase 8 0 ++
      0x2e :: shortPart v p lowercaseExt 3 8 := by
    simp [named, shortName, file, extended]
  have base := base_spelled padded text
  have ext := ext_spelled text
  have fits := base_all_fit base fun x low high => by
    simpa [Stays, base.blank x low high, file] using ext.dot
  have ext_fits := ext_all_fit ext
  constructor
  · intro short
    have all := short.2 file
    rw [fits.1] at all
    exact ⟨fits.2.mp short.1, fun _ _ => ext_fits.mp all, fun _ bare => absurd bare extended⟩
  · intro own
    refine ⟨fits.2.mpr own.base, fun _ => ?_⟩
    rw [fits.1]
    exact ext_fits.mpr (own.ext file extended)

theorem own_short_fits {v : View} {p : Int} {d : Component} (padded : Padded v p)
    (named : d.text = shortName v p) : ShortFits v p d ↔ OwnShort v p d := by
  by_cases directory : isDirectory v p = true
  · exact own_directory padded directory named
  · have file : isDirectory v p = false := by simpa using directory
    by_cases bare : dirName v p 8 = 0x20
    · exact own_bare padded file bare named
    · exact own_extended padded file bare named

def slotChar (v : View) (p : Int) (i : Nat) : Nat :=
  ldirName v (p - 32 * ((i / 13 : Nat) + 1)) (i % 13)

/-- n long slots spell len characters of ASCII, then a 0 where one fits, then 0xffff. -/
structure ProperSlots (v : View) (p : Int) (n len : Nat) : Prop where
  low : 13 * n < len + 13
  high : len ≤ 13 * n
  text : ∀ i < len, slotChar v p i ≠ 0 ∧ slotChar v p i < 128
  zero : len < 13 * n → slotChar v p len = 0
  filler : ∀ i, len < i → i < 13 * n → slotChar v p i = 0xffff

theorem slotChar_slot (v : View) (p : Int) (s t : Nat) (within : t < 13) :
    slotChar v p (13 * s + t) = ldirName v (p - 32 * (s + 1)) t := by
  have slot : (13 * s + t) / 13 = s := by omega
  have char : (13 * s + t) % 13 = t := by omega
  rw [slotChar, slot, char]

theorem longName_eq (v : View) (p : Int) (n : Nat) :
    longName v n (p - 32) = ((List.range (13 * n)).map (slotChar v p)).filterMap longChar := by
  induction n generalizing p with
  | zero => rfl
  | succ n ih =>
    have parts : 13 * (n + 1) = 13 + 13 * n := by omega
    have head : (List.range 13).map (slotChar v p) =
        (List.range 13).map fun x => ldirName v (p - 32) x := by
      apply List.map_congr_left
      intro x member
      have at_ := slotChar_slot v p 0 x (List.mem_range.mp member)
      simpa using at_
    have tail : ∀ i, slotChar v p (13 + i) = slotChar v (p - 32) i := by
      intro i
      have slot : (13 + i) / 13 = i / 13 + 1 := by omega
      have char : (13 + i) % 13 = i % 13 := by omega
      have place : p - 32 * (((i / 13 + 1 : Nat) : Int) + 1) =
          p - 32 - 32 * (((i / 13 : Nat) : Int) + 1) := by omega
      rw [slotChar, slot, char, place, slotChar]
    have rest : ((List.range (13 * n)).map (13 + ·)).map (slotChar v p) =
        (List.range (13 * n)).map (slotChar v (p - 32)) := by
      rw [List.map_map]
      apply List.map_congr_left
      intro i _
      exact tail i
    rw [longName, ih (p - 32), parts, List.range_add, List.map_append, List.filterMap_append, head,
      rest, slotName, List.filterMap_map]
    rfl

theorem longName_text {v : View} {p : Int} {n len : Nat} (proper : ProperSlots v p n len) :
    longName v n (p - 32) = (List.range len).map fun i => UInt8.ofNat (slotChar v p i) := by
  have parts : 13 * n = len + (13 * n - len) := by
    have high := proper.high
    omega
  have kept : ((List.range len).map (slotChar v p)).filterMap longChar =
      (List.range len).map fun i => UInt8.ofNat (slotChar v p i) := by
    rw [List.filterMap_map, List.filterMap_eq_map_iff_forall_eq_some]
    intro i member
    obtain ⟨solid, small⟩ := proper.text i (List.mem_range.mp member)
    have plain : slotChar v p i ≠ 0xffff ∧ slotChar v p i ≠ 0 := ⟨by omega, solid⟩
    exact if_pos plain
  have dropped : (((List.range (13 * n - len)).map (len + ·)).map (slotChar v p)).filterMap
      longChar = [] := by
    rw [List.filterMap_eq_nil_iff]
    intro c member
    obtain ⟨i, at_, rfl⟩ := List.mem_map.mp member
    obtain ⟨k, within, rfl⟩ := List.mem_map.mp at_
    have bound := List.mem_range.mp within
    by_cases first : k = 0
    · rw [first, Nat.add_zero, proper.zero (by omega)]
      rfl
    · rw [proper.filler (len + k) (by omega) (by omega)]
      rfl
  rw [longName_eq, parts, List.range_add, List.map_append, List.filterMap_append, kept, dropped,
    List.append_nil]

theorem countSlots_slots {v : View} {fuel n : Nat} {q : Int}
    (counted : countSlots v fuel q = some n) : ∀ s < n, longSlot v (q - 32 * s) = true := by
  induction fuel generalizing q n with
  | zero => cases counted
  | succ fuel ih =>
    by_cases slot : longSlot v q = true
    · intro s within
      cases s with
      | zero => simpa using slot
      | succ s =>
        simp only [countSlots, slot, ↓reduceIte] at counted
        split at counted
        · cases counted
          omega
        · obtain ⟨m, rest, made⟩ := Option.map_eq_some_iff.mp counted
          have place : q - 32 * ((s + 1 : Nat) : Int) = q - 32 - 32 * (s : Int) := by omega
          rw [place]
          exact ih rest s (by omega)
    · simp only [countSlots, slot, Bool.false_eq_true, ↓reduceIte, Option.some.injEq] at counted
      intro s within
      omega

theorem ldirName_congr {v v' : View} {q : Int} (same : ∀ i, q ≤ i → i < q + 32 → v i = v' i)
    {x : Nat} (within : x < 13) : ldirName v q x = ldirName v' q x := by
  have word : ∀ k : Int, 0 ≤ k → k + 1 < 32 → wordAt v (q + k) = wordAt v' (q + k) := by
    intro k low high
    rw [wordAt, wordAt, byteAt, byteAt, byteAt, byteAt, same _ (by omega) (by omega),
      same _ (by omega) (by omega)]
  unfold ldirName
  split
  · rw [Int.add_assoc]
    exact word _ (by omega) (by omega)
  · split
    · rw [Int.add_assoc]
      exact word _ (by omega) (by omega)
    · rw [Int.add_assoc]
      exact word _ (by omega) (by omega)

theorem lookupSlot_of_long {v v' : View} {q : Int}
    (same : ∀ i, q ≤ i → i < q + 32 → v i = v' i) (slot : longSlot v q = true) :
    lookupSlot v' q = true := by
  have ord : ldirOrd v q = ldirOrd v' q := congrArg UInt8.toNat (same q (by omega) (by omega))
  have attr : ldirAttr v q = ldirAttr v' q :=
    congrArg UInt8.toNat (same (q + 11) (by omega) (by omega))
  simp only [longSlot, decide_eq_true_eq] at slot
  simp only [lookupSlot, decide_eq_true_eq, ← ord, ← attr]
  exact ⟨slot.1, slot.2.1⟩

theorem short_char {c : Nat} (small : c < 128) : unsignedShort (UInt8.ofNat c) = c := by
  have char : (UInt8.ofNat c).toNat = c := by
    rw [UInt8.toNat_ofNat']
    omega
  simp [unsignedShort, char, small]

/-- A long name whose slots lie in the cluster looks like its entry, whatever the heap of the
    lookup holds. -/
theorem own_long_fits {v v' : View} {p : Int} {d : Component} {fuel n len : Nat}
    (counted : countSlots v fuel (p - 32) = some n) (inside : 32 * (n : Int) ≤ p)
    (same : ∀ i, 0 ≤ i → i < p → v i = v' i) (proper : ProperSlots v p n len)
    (named : d.text = longName v n (p - 32)) : LongFits v' p d := by
  rw [longName_text proper] at named
  obtain ⟨length, char⟩ := text_char named
  rw [List.length_map, List.length_range] at length
  have low := proper.low
  have high := proper.high
  have fills : slots d = n := by
    unfold slots
    omega
  intro s within
  rw [fills] at within
  have bytes : ∀ i, p - 32 * (s + 1) ≤ i → i < p - 32 * (s + 1) + 32 → v i = v' i :=
    fun i above below => same i (by omega) (by omega)
  have slot := countSlots_slots counted s within
  have place : p - 32 - 32 * (s : Int) = p - 32 * ((s : Int) + 1) := by omega
  rw [place] at slot
  refine ⟨lookupSlot_of_long bytes slot, fun t below => ?_⟩
  rw [← ldirName_congr bytes below, ← slotChar_slot v p s t below]
  unfold padded
  by_cases text : 13 * s + t < len
  · have at_ := char (13 * s + t) (UInt8.ofNat (slotChar v p (13 * s + t))) (by simp [text])
    rw [if_pos (by omega), at_, short_char (proper.text _ text).2]
  · by_cases zero : 13 * s + t = len
    · rw [if_pos (by omega), zero, proper.zero (by omega), ← length, d.terminated]
      rfl
    · rw [if_neg (by omega), proper.filler _ (by omega) (by omega)]

theorem shortPart_congr {v v' : View} {p : Int} {flag : Nat}
    (name : ∀ x < 11, dirName v p x = dirName v' p x) (flags : dirNTRes v p = dirNTRes v' p)
    (left x : Nat) (inside : x + left ≤ 11) :
    shortPart v p flag left x = shortPart v' p flag left x := by
  induction left generalizing x with
  | zero => rfl
  | succ left ih =>
    simp only [shortPart, name x (by omega), flags, ih (x + 1) (by omega)]

theorem shortName_congr {v v' : View} {p : Int}
    (same : ∀ i, p ≤ i → i < p + 32 → v i = v' i) : shortName v p = shortName v' p := by
  have byte : ∀ k : Int, 0 ≤ k → k < 32 → byteAt v (p + k) = byteAt v' (p + k) := by
    intro k low high
    rw [byteAt, byteAt, same (p + k) (by omega) (by omega)]
  have name : ∀ x < 11, dirName v p x = dirName v' p x := fun x within =>
    byte x (by omega) (by omega)
  have flags : dirNTRes v p = dirNTRes v' p := byte 12 (by omega) (by omega)
  have attr : dirAttr v p = dirAttr v' p := byte 11 (by omega) (by omega)
  have directory : isDirectory v p = isDirectory v' p := by
    unfold isDirectory
    rw [attr]
  simp only [shortName, directory, name 8 (by omega),
    shortPart_congr name flags 8 0 (by omega), shortPart_congr name flags 3 8 (by omega)]

/-- An entry as a formatted directory has it: blanks at the end of a short name, and slots of
    its own cluster that spell a long one. -/
structure WellNamed (v : View) (fuel : Nat) (p : Int) : Prop where
  padded : longSlot v (p - 32) = false → Padded v p
  slots : ∀ n, longSlot v (p - 32) = true → countSlots v fuel (p - 32) = some n →
    32 * (n : Int) ≤ p → ∃ len, ProperSlots v p n len

/-- The entry at p goes with the name FAT32_readdir reads off it with v before its eyes, when
    FAT32_lookup has v' before them. -/
def OwnName (fuel : Nat) (v v' : View) (p : Int) (d : Component) : Prop :=
  if longSlot v (p - 32) then
    (∃ n, countSlots v fuel (p - 32) = some n ∧ 32 * (n : Int) ≤ p) ∨ Resembles v' p d
  else LongFits v' p d ∨ (Unslotted v' p d ∧ OwnShort v' p d)

theorem own_name_iff {v v' : View} {fuel : Nat} {p : Int} {d : Component} {name : List UInt8}
    (start : 0 ≤ p) (same : ∀ i, 0 ≤ i → i < p + 32 → v i = v' i) (well : WellNamed v fuel p)
    (reported : readdirName fuel v p = some name) (named : d.text = name) :
    Resembles v' p d ↔ OwnName fuel v v' p d := by
  unfold OwnName
  by_cases long : longSlot v (p - 32) = true
  · rw [if_pos long]
    simp only [readdirName, long, ↓reduceIte] at reported
    constructor
    · exact Or.inr
    · intro either
      rcases either with ⟨n, counted, inside⟩ | resembles
      · obtain ⟨len, proper⟩ := well.slots n long counted inside
        rw [counted] at reported
        have text : d.text = longName v n (p - 32) := by
          rw [named]
          exact (Option.some.inj reported).symm
        exact Or.inl (own_long_fits counted inside (fun i low high => same i low (by omega))
          proper text)
      · exact resembles
  · have short : longSlot v (p - 32) = false := by simpa using long
    have bytes : ∀ i, p ≤ i → i < p + 32 → v i = v' i := fun i low high =>
      same i (by omega) high
    have name_at : ∀ x < 11, dirName v p x = dirName v' p x := fun x within =>
      congrArg UInt8.toNat (bytes (p + x) (by omega) (by omega))
    have padded := well.padded short
    have padded' : Padded v' p := by
      constructor
      · intro y high x low
        rw [← name_at x (by omega), ← name_at y (by omega)]
        exact padded.base y high x low
      · intro y high x low
        rw [← name_at x (by omega), ← name_at y (by omega)]
        exact padded.ext y high x low
    simp only [readdirName, short, Bool.false_eq_true, ↓reduceIte, Option.some.injEq] at reported
    have text : d.text = shortName v' p := by
      rw [named, ← reported, shortName_congr bytes]
    rw [if_neg long, ← own_short_fits padded' text]
    exact Iff.rfl

end NameMatching

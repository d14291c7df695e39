import Q2os.Fat32Lookup

/- Which entries FAT32_lookup takes for a component, said of their bytes alone, and when the
   first of them has the name. -/
namespace NameMatching
open ByteMemory BlockProgram Fat32

/- The i-th character a long name has to have: the name, its 0, and 0xffff from there on. -/
def padded (d : Component) (i : Nat) : Nat :=
  if i ≤ d.nameLength then unsignedShort (d.name i) else 0xffff

/- The slot at p holds the s-th 13 of them. -/
def SlotFits (v : View) (d : Component) (p : Int) (s : Nat) : Prop :=
  lookupSlot v p = true ∧ ∀ t < 13, ldirName v p t = padded d (13 * s + t)

/- The slots the characters of the name fill; the 0 behind them is not counted. -/
def slots (d : Component) : Nat := (d.nameLength + 12) / 13

/-- As many slots above the entry as the name fills hold its characters. The slots may go on
    from there. -/
def LongFits (v : View) (p : Int) (d : Component) : Prop :=
  ∀ s < slots d, SlotFits v d (p - 32 * (s + 1)) s

/- The slots end before the name does, and hold its characters up to there. -/
def Unslotted (v : View) (p : Int) (d : Component) : Prop :=
  ∃ s < slots d, lookupSlot v (p - 32 * (s + 1)) = false ∧
    ∀ r < s, SlotFits v d (p - 32 * (r + 1)) r

/- A blank of the base name that takes no character: at a dot, for a directory at the end. -/
def Stays (v : View) (p : Int) (d : Component) (x j : Nat) : Prop :=
  dirName v p x = 0x20 ∧ if isDirectory v p then j = d.nameLength else d.name j = 0x2e

instance (v : View) (p : Int) (d : Component) (x j : Nat) : Decidable (Stays v p d x j) := by
  unfold Stays
  infer_instance

def comparedAt (v : View) (p : Int) (d : Component) : Nat → Nat
  | 0 => 0
  | x + 1 =>
    let j := comparedAt v p d x
    if Stays v p d x j then j else j + 1

/- DIR_Name[x] of the base name goes with the character j. Nothing is asked of a character
   that is no blank, letter or digit. -/
structure BaseFits (v : View) (p : Int) (d : Component) (x j : Nat) : Prop where
  blank : dirName v p x = 0x20 → Stays v p d x j ∨
    (signedChar (d.name j) = 0x20 ∧ (isDirectory v p → j < d.nameLength))
  letter : isLetter (dirName v p x) →
    j < d.nameLength ∧ signedChar (d.name j) = letterAt v p lowercaseBase x
  digit : isDigit (dirName v p x) → j < d.nameLength ∧ signedChar (d.name j) = dirName v p x

structure ExtFits (v : View) (p : Int) (d : Component) (x j : Nat) : Prop where
  blank : dirName v p x = 0x20 → signedChar (d.name j) = 0x20
  letter : isLetter (dirName v p x) → signedChar (d.name j) = letterAt v p lowercaseExt x
  digit : isDigit (dirName v p x) → signedChar (d.name j) = dirName v p x
  other : dirName v p x = 0x20 ∨ isLetter (dirName v p x) ∨ isDigit (dirName v p x)

/-- The eleven characters go with the name: the base name from its start, the extension of a
    file from one past the character the base name ends at. What else the name has is free. -/
def ShortFits (v : View) (p : Int) (d : Component) : Prop :=
  (∀ x < 8, BaseFits v p d x (comparedAt v p d x)) ∧
  (isDirectory v p = false → ∀ x < 3, ExtFits v p d (8 + x) (comparedAt v p d 8 + 1 + x))

/-- The entry at p looks like the name. -/
def Resembles (v : View) (p : Int) (d : Component) : Prop :=
  LongFits v p d ∨ (Unslotted v p d ∧ ShortFits v p d)

theorem compareSlot_iff (v : View) (p : Int) (d : Component) (left x j j' : Nat)
    (within : j ≤ d.nameLength + 1) :
    compareSlot v p d left x j = some j' ↔
      (∀ t < left, ldirName v p (x + t) = padded d (j + t)) ∧
        j' = min (j + left) (d.nameLength + 1) := by
  induction left generalizing x j with
  | zero =>
    simp only [compareSlot, Option.some.injEq, Nat.not_lt_zero, false_implies, implies_true,
      true_and, Nat.add_zero]
    omega
  | succ left ih =>
    have head : (∀ t < left + 1, ldirName v p (x + t) = padded d (j + t)) ↔
        ldirName v p x = padded d j ∧
          ∀ t < left, ldirName v p (x + 1 + t) = padded d (j + 1 + t) := by
      rw [Nat.forall_lt_succ_left]
      simp only [Nat.add_zero, Nat.add_assoc, Nat.add_comm 1]
    rw [head]
    unfold compareSlot
    by_cases past : j > d.nameLength
    · have at_end : j = d.nameLength + 1 := by omega
      have pad : padded d j = 0xffff := if_neg (by omega)
      have rest : ∀ t, padded d (j + 1 + t) = padded d (j + t) := by
        intro t
        rw [padded, padded, if_neg (by omega), if_neg (by omega)]
      have stop : min (j + (left + 1)) (d.nameLength + 1) = min (j + left) (d.nameLength + 1) := by
        omega
      by_cases filler : ldirName v p x = 0xffff
      · rw [if_pos ⟨past, filler⟩, ih (x + 1) j within, stop]
        simp [filler, pad, rest]
      · rw [if_neg fun both => filler both.2, if_pos (Or.inl past)]
        simp [filler, pad]
    · have here : padded d j = unsignedShort (d.name j) := if_pos (by omega)
      have stop : min (j + 1 + left) (d.nameLength + 1) =
          min (j + (left + 1)) (d.nameLength + 1) := by omega
      rw [if_neg fun both => past both.1, here]
      by_cases same : ldirName v p x = unsignedShort (d.name j)
      · rw [if_neg fun either => either.elim past fun other => other same,
          ih (x + 1) (j + 1) (by omega), stop]
        simp [same]
      · rw [if_pos (Or.inr same)]
        simp [same]

theorem compareSlot_fits {v : View} {p : Int} {d : Component} {s : Nat}
    (before : 13 * s ≤ d.nameLength) :
    compareSlot v p d 13 0 (13 * s) = some (min (13 * (s + 1)) (d.nameLength + 1)) ↔
      ∀ t < 13, ldirName v p t = padded d (13 * s + t) := by
  rw [compareSlot_iff v p d 13 0 (13 * s) _ (by omega)]
  simp only [Nat.zero_add, Nat.mul_add, Nat.mul_one, and_true]

theorem compareSlot_differs {v : View} {p : Int} {d : Component} {s : Nat}
    (before : 13 * s ≤ d.nameLength)
    (differs : ¬ ∀ t < 13, ldirName v p t = padded d (13 * s + t)) :
    compareSlot v p d 13 0 (13 * s) = none := by
  cases compared : compareSlot v p d 13 0 (13 * s) with
  | none => rfl
  | some j =>
    have fits := (compareSlot_iff v p d 13 0 (13 * s) j (by omega)).mp compared
    exact absurd (by simpa using fits.1) differs

theorem slots_bounds (d : Component) :
    d.nameLength ≤ 13 * slots d ∧ 13 * slots d < d.nameLength + 13 := by
  unfold slots
  omega

theorem compareLong_fits {v : View} {d : Component} {fuel s : Nat} {p : Int}
    (more : s < slots d) (fits : SlotFits v d p s) :
    compareLong v d (fuel + 1) p (13 * s) =
      if s + 1 < slots d then compareLong v d fuel (p - 32) (13 * (s + 1)) else .found := by
  obtain ⟨low, high⟩ := slots_bounds d
  have j := (compareSlot_fits (v := v) (p := p) (d := d) (s := s) (by omega)).mpr fits.2
  simp only [compareLong, fits.1, ↓reduceIte, j]
  by_cases again : s + 1 < slots d
  · have at_ : min (13 * (s + 1)) (d.nameLength + 1) = 13 * (s + 1) := by omega
    rw [at_, if_pos again, if_neg (by omega)]
  · rw [if_neg again, if_pos (by omega)]

theorem compareLong_stops {v : View} {d : Component} {fuel s : Nat} {p : Int}
    (more : s < slots d) (differs : ¬ SlotFits v d p s) :
    compareLong v d (fuel + 1) p (13 * s) = if lookupSlot v p then .failed else .short := by
  obtain ⟨low, high⟩ := slots_bounds d
  by_cases slot : lookupSlot v p = true
  · have none_ := compareSlot_differs (v := v) (p := p) (d := d) (s := s) (by omega)
      fun fits => differs ⟨slot, fits⟩
    simp only [compareLong, slot, ↓reduceIte, none_]
  · simp only [compareLong, slot, Bool.false_eq_true, ↓reduceIte]

def FitFrom (v : View) (d : Component) (q : Int) (s : Nat) : Prop :=
  ∀ r, s ≤ r → r < slots d → SlotFits v d (q - 32 * (r + 1)) r

def EndFrom (v : View) (d : Component) (q : Int) (s : Nat) : Prop :=
  ∃ r, s ≤ r ∧ r < slots d ∧ lookupSlot v (q - 32 * (r + 1)) = false ∧
    ∀ t, s ≤ t → t < r → SlotFits v d (q - 32 * (t + 1)) t

theorem fitFrom_step {v : View} {d : Component} {q : Int} {s : Nat}
    (fits : SlotFits v d (q - 32 * (s + 1)) s) : FitFrom v d q s ↔ FitFrom v d q (s + 1) := by
  constructor
  · intro all r later more
    exact all r (by omega) more
  · intro all r later more
    by_cases here : r = s
    · rw [here]
      exact fits
    · exact all r (by omega) more

theorem endFrom_step {v : View} {d : Component} {q : Int} {s : Nat}
    (fits : SlotFits v d (q - 32 * (s + 1)) s) : EndFrom v d q s ↔ EndFrom v d q (s + 1) := by
  constructor
  · intro ends
    obtain ⟨r, later, more, stops, before⟩ := ends
    by_cases here : r = s
    · rw [here, fits.1] at stops
      cases stops
    · exact ⟨r, by omega, more, stops, fun t low high => before t (by omega) high⟩
  · intro ends
    obtain ⟨r, later, more, stops, before⟩ := ends
    refine ⟨r, by omega, more, stops, fun t low high => ?_⟩
    by_cases here : t = s
    · rw [here]
      exact fits
    · exact before t (by omega) high

theorem fitFrom_stop {v : View} {d : Component} {q : Int} {s : Nat} (more : s < slots d)
    (differs : ¬ SlotFits v d (q - 32 * (s + 1)) s) : ¬ FitFrom v d q s :=
  fun all => differs (all s (Nat.le_refl s) more)

theorem endFrom_stop {v : View} {d : Component} {q : Int} {s : Nat} (more : s < slots d)
    (differs : ¬ SlotFits v d (q - 32 * (s + 1)) s) :
    EndFrom v d q s ↔ lookupSlot v (q - 32 * (s + 1)) = false := by
  constructor
  · intro ends
    obtain ⟨r, later, _, stops, before⟩ := ends
    by_cases here : r = s
    · rw [← here]
      exact stops
    · exact absurd (before s (Nat.le_refl s) (by omega)) differs
  · intro stops
    exact ⟨s, Nat.le_refl s, more, stops, fun t low high => by omega⟩

theorem compareLong_from {v : View} {d : Component} {q : Int} {k s fuel : Nat}
    (left : s + k + 1 = slots d) (enough : k < fuel) :
    (compareLong v d fuel (q - 32 * (s + 1)) (13 * s) = .found ↔ FitFrom v d q s) ∧
    (compareLong v d fuel (q - 32 * (s + 1)) (13 * s) = .short ↔ EndFrom v d q s) := by
  induction k generalizing s fuel with
  | zero =>
    obtain ⟨fuel, rfl⟩ := Nat.exists_eq_succ_of_ne_zero (Nat.ne_of_gt enough)
    by_cases fits : SlotFits v d (q - 32 * (s + 1)) s
    · have last : ¬ s + 1 < slots d := by omega
      have all : FitFrom v d q (s + 1) := fun r later more => by omega
      have no_end : ¬ EndFrom v d q (s + 1) := fun ⟨r, later, more, _⟩ => by omega
      rw [compareLong_fits (by omega) fits, if_neg last, fitFrom_step fits, endFrom_step fits]
      simp [all, no_end]
    · rw [compareLong_stops (by omega) fits, endFrom_stop (by omega) fits]
      have not_all := fitFrom_stop (by omega) fits
      cases lookupSlot v (q - 32 * (s + 1)) <;> simp [not_all]
  | succ k ih =>
    obtain ⟨fuel, rfl⟩ := Nat.exists_eq_succ_of_ne_zero (Nat.ne_of_gt (Nat.zero_lt_of_lt enough))
    by_cases fits : SlotFits v d (q - 32 * (s + 1)) s
    · have again : s + 1 < slots d := by omega
      have next : q - 32 * ((s : Int) + 1) - 32 = q - 32 * (((s + 1 : Nat) : Int) + 1) := by omega
      rw [compareLong_fits (by omega) fits, if_pos again, next, fitFrom_step fits,
        endFrom_step fits]
      exact ih (by omega) (by omega)
    · rw [compareLong_stops (by omega) fits, endFrom_stop (by omega) fits]
      have not_all := fitFrom_stop (by omega) fits
      cases lookupSlot v (q - 32 * (s + 1)) <;> simp [not_all]

theorem compareLong_whole (v : View) (p : Int) (d : Component) :
    (compareLong v d (d.nameLength + 1) (p - 32) 0 = .found ↔ LongFits v p d) ∧
    (compareLong v d (d.nameLength + 1) (p - 32) 0 = .short ↔ Unslotted v p d) := by
  have some_slots : 0 < slots d := by
    have := d.nonempty
    unfold slots
    omega
  have bounds := slots_bounds d
  obtain ⟨found, short⟩ := @compareLong_from v d p (slots d - 1) 0 (d.nameLength + 1)
    (by omega) (by omega)
  constructor
  · refine found.trans ⟨fun all s more => all s (Nat.zero_le s) more, fun all s _ more => all s more⟩
  · refine short.trans ⟨?_, ?_⟩
    · intro ends
      obtain ⟨r, _, more, stops, before⟩ := ends
      exact ⟨r, more, stops, fun t high => before t (Nat.zero_le t) high⟩
    · intro ends
      obtain ⟨r, more, stops, before⟩ := ends
      exact ⟨r, Nat.zero_le r, more, stops, fun t _ high => before t high⟩

theorem letter_bounds {c : Nat} :
    isLetter c = true ↔ (0x41 ≤ c ∧ c ≤ 0x5a) ∨ (0x61 ≤ c ∧ c ≤ 0x7a) := by
  simp [isLetter]

theorem digit_bounds {c : Nat} : isDigit c = true ↔ 0x30 ≤ c ∧ c ≤ 0x39 := by
  simp [isDigit]

theorem letter_kind {c : Nat} (letter : isLetter c = true) : c ≠ 0x20 ∧ isDigit c = false := by
  have bounds := letter_bounds.mp letter
  simp only [isDigit, decide_eq_false_iff_not]
  omega

theorem digit_kind {c : Nat} (digit : isDigit c = true) : c ≠ 0x20 ∧ isLetter c = false := by
  have bounds := digit_bounds.mp digit
  simp only [isLetter, decide_eq_false_iff_not]
  omega

theorem baseFits_blank {v : View} {p : Int} {d : Component} {x j : Nat}
    (blank : dirName v p x = 0x20) :
    BaseFits v p d x j ↔ Stays v p d x j ∨
      (signedChar (d.name j) = 0x20 ∧ (isDirectory v p → j < d.nameLength)) := by
  constructor
  · intro fits
    exact fits.blank blank
  · intro either
    exact ⟨fun _ => either, fun letter => absurd blank (letter_kind letter).1,
      fun digit => absurd blank (digit_kind digit).1⟩

theorem baseFits_letter {v : View} {p : Int} {d : Component} {x j : Nat}
    (letter : isLetter (dirName v p x) = true) :
    BaseFits v p d x j ↔
      j < d.nameLength ∧ signedChar (d.name j) = letterAt v p lowercaseBase x := by
  obtain ⟨solid, no_digit⟩ := letter_kind letter
  constructor
  · intro fits
    exact fits.letter letter
  · intro same
    exact ⟨fun blank => absurd blank solid, fun _ => same,
      fun digit => absurd digit (by simp [no_digit])⟩

theorem baseFits_digit {v : View} {p : Int} {d : Component} {x j : Nat}
    (digit : isDigit (dirName v p x) = true) :
    BaseFits v p d x j ↔ j < d.nameLength ∧ signedChar (d.name j) = dirName v p x := by
  obtain ⟨solid, no_letter⟩ := digit_kind digit
  constructor
  · intro fits
    exact fits.digit digit
  · intro same
    exact ⟨fun blank => absurd blank solid, fun letter => absurd letter (by simp [no_letter]),
      fun _ => same⟩

theorem baseFits_other {v : View} {p : Int} {d : Component} {x j : Nat}
    (solid : dirName v p x ≠ 0x20) (no_letter : ¬ isLetter (dirName v p x) = true)
    (no_digit : ¬ isDigit (dirName v p x) = true) : BaseFits v p d x j :=
  ⟨fun blank => absurd blank solid, fun letter => absurd letter no_letter,
    fun digit => absurd digit no_digit⟩

theorem stays_solid {v : View} {p : Int} {d : Component} {x j : Nat}
    (solid : dirName v p x ≠ 0x20) : ¬ Stays v p d x j := fun stays => solid stays.1

theorem compareBaseChar_iff (v : View) (p : Int) (d : Component) (x j j' : Nat) :
    compareBaseChar v p d x j = some j' ↔
      BaseFits v p d x j ∧ j' = if Stays v p d x j then j else j + 1 := by
  unfold compareBaseChar
  by_cases blank : dirName v p x = 0x20
  · rw [baseFits_blank blank]
    cases directory : isDirectory v p with
    | false =>
      have stays : Stays v p d x j ↔ d.name j = 0x2e := by simp [Stays, blank, directory]
      by_cases dot : d.name j = 0x2e
      · simp [stays, blank, dot, eq_comm]
      · by_cases same : signedChar (d.name j) = 0x20
        · simp [stays, blank, dot, same, eq_comm]
        · simp [stays, blank, dot, same]
    | true =>
      have stays : Stays v p d x j ↔ j = d.nameLength := by simp [Stays, blank, directory]
      by_cases at_end : j = d.nameLength
      · have here := stays.mpr at_end
        simp [here, blank, at_end.symm, eq_comm]
      · by_cases same : j < d.nameLength ∧ signedChar (d.name j) = 0x20
        · simp [stays, blank, at_end, same, eq_comm]
        · have neither : ¬ (signedChar (d.name j) = 0x20 ∧ j < d.nameLength) :=
            fun both => same ⟨both.2, both.1⟩
          simp [stays, blank, at_end, same, neither]
  · have moves := stays_solid (d := d) (j := j) blank
    by_cases letter : isLetter (dirName v p x) = true
    · rw [baseFits_letter letter, if_neg moves]
      by_cases same : j < d.nameLength ∧ signedChar (d.name j) = letterAt v p lowercaseBase x
      · simp [blank, letter, same, eq_comm]
      · simp [blank, letter, same]
    · by_cases digit : isDigit (dirName v p x) = true
      · rw [baseFits_digit digit, if_neg moves]
        by_cases same : j < d.nameLength ∧ signedChar (d.name j) = dirName v p x
        · simp [blank, letter, digit, same, eq_comm]
        · simp [blank, letter, digit, same]
      · have fits := baseFits_other (d := d) (j := j) blank letter digit
        simp [blank, letter, digit, moves, fits, eq_comm]

theorem compareBase_iff (v : View) (p : Int) (d : Component) (left x j' : Nat) :
    compareBase v p d left x (comparedAt v p d x) = some j' ↔
      (∀ t < left, BaseFits v p d (x + t) (comparedAt v p d (x + t))) ∧
        j' = comparedAt v p d (x + left) := by
  induction left generalizing x with
  | zero =>
    simp only [compareBase, Option.some.injEq, Nat.not_lt_zero, false_implies, implies_true,
      true_and, Nat.add_zero]
    exact eq_comm
  | succ left ih =>
    have next : comparedAt v p d (x + 1) =
        if Stays v p d x (comparedAt v p d x) then comparedAt v p d x else comparedAt v p d x + 1 :=
      rfl
    have shift : ∀ t, x + 1 + t = x + (t + 1) := fun t => by omega
    have rest := ih (x + 1)
    simp only [shift] at rest
    rw [Nat.forall_lt_succ_left]
    simp only [compareBase, Option.bind_eq_some_iff, compareBaseChar_iff, Nat.add_zero]
    constructor
    · intro some_
      obtain ⟨j, ⟨fits, moved⟩, others⟩ := some_
      rw [moved, ← next, rest] at others
      exact ⟨⟨fits, others.1⟩, others.2⟩
    · intro every
      obtain ⟨⟨fits, others⟩, last⟩ := every
      exact ⟨comparedAt v p d (x + 1), ⟨fits, next⟩, rest.mpr ⟨others, last⟩⟩

theorem compareExtChar_iff (v : View) (p : Int) (d : Component) (x j : Nat) :
    compareExtChar v p d x j = true ↔ ExtFits v p d x j := by
  unfold compareExtChar
  by_cases letter : isLetter (dirName v p x) = true
  · obtain ⟨solid, no_digit⟩ := letter_kind letter
    simp only [letter, ↓reduceIte, decide_eq_true_eq]
    exact ⟨fun same => ⟨fun blank => absurd blank solid, fun _ => same,
      fun digit => absurd digit (by simp [no_digit]), Or.inr (Or.inl letter)⟩,
      fun fits => fits.letter letter⟩
  · by_cases digit : isDigit (dirName v p x) = true
    · obtain ⟨solid, no_letter⟩ := digit_kind digit
      simp only [letter, digit, Bool.false_eq_true, ↓reduceIte, decide_eq_true_eq]
      exact ⟨fun same => ⟨fun blank => absurd blank solid, fun other => absurd other letter,
        fun _ => same, Or.inr (Or.inr digit)⟩, fun fits => fits.digit digit⟩
    · by_cases blank : dirName v p x = 0x20
      · rw [blank] at letter digit ⊢
        simp only [letter, digit, Bool.false_eq_true, ↓reduceIte, decide_eq_true_eq]
        exact ⟨fun same => ⟨fun _ => same, fun other => absurd (blank ▸ other) letter,
          fun other => absurd (blank ▸ other) digit, Or.inl blank⟩, fun fits => fits.blank blank⟩
      · simp only [letter, digit, blank, Bool.false_eq_true, ↓reduceIte, false_iff]
        exact fun fits => fits.other.elim blank fun either => either.elim letter digit

theorem compareExt_iff (v : View) (p : Int) (d : Component) (left x j : Nat) :
    compareExt v p d left x j = true ↔ ∀ t < left, ExtFits v p d (x + t) (j + t) := by
  induction left generalizing x j with
  | zero => simp [compareExt]
  | succ left ih =>
    rw [Nat.forall_lt_succ_left]
    simp only [compareExt, Bool.and_eq_true, compareExtChar_iff, ih, Nat.add_zero, Nat.add_assoc,
      Nat.add_comm 1]

theorem compareShort_iff (v : View) (p : Int) (d : Component) :
    compareShort v p d = true ↔ ShortFits v p d := by
  have start : comparedAt v p d 0 = 0 := rfl
  have base := fun j => compareBase_iff v p d 8 0 j
  simp only [start, Nat.zero_add] at base
  unfold compareShort ShortFits
  cases compared : compareBase v p d 8 0 0 with
  | none =>
    have differs : ¬ ∀ x < 8, BaseFits v p d x (comparedAt v p d x) := by
      intro fits
      rw [(base (comparedAt v p d 8)).mpr ⟨fits, rfl⟩] at compared
      cases compared
    simp [differs]
  | some j =>
    obtain ⟨fits, last⟩ := (base j).mp compared
    rw [last]
    cases directory : isDirectory v p with
    | true => simpa using fits
    | false =>
      have both : ((∀ x < 8, BaseFits v p d x (comparedAt v p d x)) ∧
          ∀ x < 3, ExtFits v p d (8 + x) (comparedAt v p d 8 + 1 + x)) ↔
          ∀ x < 3, ExtFits v p d (8 + x) (comparedAt v p d 8 + 1 + x) := and_iff_right fits
      simpa [compareExt_iff] using both.symm

/-- FAT32_lookup takes just the entries that look like the name. -/
theorem compareName_iff (v : View) (p : Int) (d : Component) :
    compareName v p d = true ↔ Resembles v p d := by
  obtain ⟨found, short⟩ := compareLong_whole v p d
  unfold compareName Resembles
  rw [← found, ← short, ← compareShort_iff]
  cases compareLong v d (d.nameLength + 1) (p - 32) 0 with
  | found => simp
  | failed => simp
  | short => simp

end NameMatching

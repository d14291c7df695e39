import Q2os.Scanf

/- The tool kallsyms reads what nm lists of the kernel. -/
namespace Kallsyms
open Scanf

structure SymbolEntry where
  address : Nat
  type : UInt8
  symbol : List UInt8
deriving DecidableEq

/- What .asciz takes as it stands: no quote and no backslash, and no NUL in a name. -/
def Plain (c : UInt8) : Prop := c ≠ 0 ∧ c ≠ 0x22 ∧ c ≠ 0x5c

instance (c : UInt8) : Decidable (Plain c) := inferInstanceAs (Decidable (_ ∧ _ ∧ _))

/- The stream behind, and the entry where the three conversions match; strdup ends at a NUL. -/
def readSymbol (f : Stream) : Stream × Option SymbolEntry :=
  match scanHex f with
  | .ended f => (f, none)
  | .mismatch f => (fgets 99 f, none)
  | .value address f =>
    match scanChar (skipSpace f) with
    | .mismatch f | .ended f => (fgets 99 f, none)
    | .value type f =>
      match scanWord 99 (skipSpace f) with
      | .mismatch f | .ended f => (fgets 99 f, none)
      | .value string f => (skipSpace f, some ⟨address, type, string.takeWhile (· ≠ 0)⟩)

def readLines : Nat → Stream → List SymbolEntry → Option (List SymbolEntry)
  | 0, _, _ => none
  | n + 1, f, table =>
    if f.feof then some table
    else readLines n (readSymbol f).1 (table ++ (readSymbol f).2.toList)

def readMap (text : List UInt8) : Option (List SymbolEntry) :=
  readLines (text.length + 2) ⟨text, false⟩ []

/- A line of nm; a symbol that the file does not define has blanks for its address. -/
inductive Line where
  | defined (address : Nat) (type : UInt8) (name : List UInt8)
  | undefined (type : UInt8) (name : List UInt8)

def Line.text : Line → List UInt8
  | .defined address type name => hexText 16 address ++ 0x20 :: type :: 0x20 :: (name ++ [newline])
  | .undefined type name => List.replicate 17 0x20 ++ type :: 0x20 :: (name ++ [newline])

def Line.entry : Line → Option SymbolEntry
  | .defined address type name => some ⟨address, type, name⟩
  | .undefined _ _ => none

def ShortName (name : List UInt8) : Prop :=
  name ≠ [] ∧ name.length < 100 ∧ ∀ c ∈ name, Graphic c ∧ Plain c

instance (name : List UInt8) : Decidable (ShortName name) :=
  inferInstanceAs (Decidable (_ ∧ _ ∧ _))

def undefinedTypes : List UInt8 := [0x55, 0x77, 0x76]

def Line.Formed : Line → Prop
  | .defined address type name => address < 2 ^ 64 ∧ Graphic type ∧ ShortName name
  | .undefined type name => type ∈ undefinedTypes ∧ ShortName name

/- fgets takes the type, a blank and 97 characters of the name; what it leaves is no number. -/
def Line.Whole : Line → Prop
  | .defined _ _ _ => True
  | .undefined _ name => startsNumber (name.drop 97) = false

instance (line : Line) : Decidable line.Formed := by
  cases line <;> exact inferInstanceAs (Decidable (_ ∧ _))

instance (line : Line) : Decidable line.Whole := by
  cases line
  · exact inferInstanceAs (Decidable True)
  · exact inferInstanceAs (Decidable (_ = _))

def listed (lines : List Line) : List UInt8 := lines.flatMap Line.text

def entries (lines : List Line) : List SymbolEntry := lines.filterMap Line.entry

structure Ahead (f : Stream) (text : List UInt8) : Prop where
  rest : f.rest.dropWhile isSpace = text.dropWhile isSpace
  feof : f.feof = true → f.rest = []

theorem ahead_newline (text : List UInt8) : Ahead ⟨newline :: text, false⟩ text :=
  ⟨List.dropWhile_cons_of_pos newline_space, nofun⟩

theorem ahead_here (text : List UInt8) : Ahead ⟨text, false⟩ text := ⟨rfl, nofun⟩

theorem ahead_skip {f : Stream} {text : List UInt8} (ahead : Ahead f text) :
    Ahead (skipSpace f) text := by
  refine ⟨?_, fun met => ?_⟩
  · exact (List.dropWhile_idempotent ..).trans ahead.rest
  · rcases Bool.or_eq_true_iff.mp met with before | empty
    · have none_left := ahead.feof before
      unfold skipSpace
      rw [none_left]
      rfl
    · exact List.isEmpty_iff.mp empty

theorem readSymbol_ahead {f : Stream} {blanks text : List UInt8} {c : UInt8}
    (ahead : Ahead f (blanks ++ c :: text)) (blank : ∀ b ∈ blanks, isSpace b = true)
    (graphic : Graphic c) : f.feof = false ∧ readSymbol f = readSymbol ⟨c :: text, false⟩ := by
  have first : f.rest.dropWhile isSpace = c :: text := by
    rw [ahead.rest, List.dropWhile_append_of_pos blank, List.dropWhile_cons_of_neg]
    rw [graphic]
    decide
  have open_ : f.feof = false := by
    by_contra met
    rw [ahead.feof (Bool.not_eq_false _ ▸ met)] at first
    cases first
  have skipped : skipSpace f = ⟨c :: text, false⟩ := by
    unfold skipSpace
    rw [first, open_]
    rfl
  refine ⟨open_, ?_⟩
  unfold readSymbol
  rw [← scanHex_skip f, skipped]

theorem graphic_newline {text : List UInt8} (graphic : ∀ c ∈ text, Graphic c) : newline ∉ text :=
  fun member => absurd (graphic newline member) (by decide)

theorem readSymbol_defined {address : Nat} {type : UInt8} {name more : List UInt8}
    (formed : (Line.defined address type name).Formed) :
    readSymbol ⟨hexText 16 address ++ 0x20 :: type :: 0x20 :: (name ++ newline :: more), false⟩ =
      (skipSpace ⟨newline :: more, false⟩, some ⟨address, type, name⟩) := by
  obtain ⟨word, graphic, some_char, short, chars⟩ := formed
  have no_nul : name.takeWhile (· ≠ 0) = name :=
    List.takeWhile_eq_self_iff.mpr fun c member => decide_eq_true (chars c member).2.1
  obtain ⟨first, rest, rfl⟩ := List.exists_cons_of_ne_nil some_char
  have read := @scanWord_word 99 (first :: rest) more newline false some_char
    (fun c member => (chars c member).1) (Nat.le_of_lt_succ short) newline_space
  unfold readSymbol
  rw [scanHex_text (by decide) (by simpa using word) word]
  dsimp only
  rw [skipSpace_one (by decide) graphic]
  dsimp only [scanChar]
  rw [List.cons_append, skipSpace_one (by decide) (chars first List.mem_cons_self).1,
    ← List.cons_append, read]
  dsimp only
  rw [no_nul]

theorem blanks_space (n : Nat) : ∀ b ∈ List.replicate n 0x20, isSpace b = true := by
  intro b member
  rw [List.eq_of_mem_replicate member]
  rfl

/- A line without an address is no entry, and fgets takes what it has room for. -/
theorem readSymbol_other {c : UInt8} {text : List UInt8} (graphic : Graphic c)
    (no_number : startsNumber (c :: text) = false) :
    readSymbol ⟨c :: text, false⟩ =
      (fgets 99 ⟨afterSign (c :: text), (afterSign (c :: text)).isEmpty⟩, none) := by
  unfold readSymbol
  rw [scanHex_mismatch graphic no_number]

theorem readSymbol_left {c : UInt8} {left more : List UInt8} (short : (c :: left).length < 99)
    (graphic : ∀ b ∈ c :: left, Graphic b) (no_number : startsNumber (c :: left) = false) :
    readSymbol ⟨c :: (left ++ newline :: more), false⟩ = (⟨more, false⟩, none) := by
  rw [readSymbol_other (graphic c List.mem_cons_self) (startsNumber_newline no_number)]
  rcases afterSign_cons c with sign | kept
  · have inside := graphic_newline fun b member => graphic b (List.mem_cons_of_mem _ member)
    rw [sign, fgets_line inside (Nat.lt_of_succ_lt short)]
    cases left <;> rfl
  · rw [kept, ← List.cons_append, fgets_line (graphic_newline graphic) short]
    rfl

theorem undefined_type {type : UInt8} (member : type ∈ undefinedTypes) :
    Graphic type ∧ ∀ text, afterSign (type :: text) = type :: text ∧
      startsNumber (type :: text) = false := by
  have number : ∀ c ∈ undefinedTypes, Graphic c ∧ hexDigit c = none ∧ ¬ (c = 0x2b ∨ c = 0x2d) := by
    decide +kernel
  obtain ⟨graphic, no_digit, no_sign⟩ := number type member
  refine ⟨graphic, fun text => ?_⟩
  have kept : afterSign (type :: text) = type :: text := if_neg no_sign
  refine ⟨kept, ?_⟩
  unfold startsNumber
  rw [kept, List.head?_cons, Option.any_some, no_digit]
  rfl

/- A line without an address is over after one read, or after a second one of what fgets left. -/
theorem readSymbol_undefined {type : UInt8} {name more : List UInt8}
    (formed : (Line.undefined type name).Formed) (whole : (Line.undefined type name).Whole) :
    ∃ f, readSymbol ⟨type :: 0x20 :: (name ++ newline :: more), false⟩ = (f, none) ∧
      (Ahead f more ∨ f.feof = false ∧ ∃ f', readSymbol f = (f', none) ∧ Ahead f' more) := by
  obtain ⟨no_address, some_char, short, chars⟩ := formed
  obtain ⟨graphic, kept⟩ := undefined_type no_address
  have names : ∀ c ∈ name, Graphic c := fun c member => (chars c member).1
  have no_newline : ∀ part : List UInt8, (∀ c ∈ part, c ∈ name) → newline ∉ type :: 0x20 :: part := by
    intro part sublist member
    rcases List.mem_cons.mp member with same | member
    · rw [← same] at graphic
      exact absurd graphic (by decide)
    · rcases List.mem_cons.mp member with same | member
      · exact absurd same (by decide)
      · exact graphic_newline names (sublist _ member)
  rw [readSymbol_other graphic (kept _).2, (kept _).1]
  by_cases fits : name.length < 97
  · refine ⟨⟨more, false⟩, ?_, Or.inl (ahead_here more)⟩
    have line := @fgets_line 99 (type :: 0x20 :: name) more false
      (no_newline name fun _ member => member)
      (by rw [List.length_cons, List.length_cons]; omega)
    exact congrArg (·, none) line
  · have filled : (type :: 0x20 :: name.take 97).length = 99 := by
      rw [List.length_cons, List.length_cons, List.length_take_of_le (Nat.not_lt.mp fits)]
    have first := @fgets_full (type :: 0x20 :: name.take 97) (name.drop 97 ++ newline :: more) false
      (no_newline _ fun c member => List.mem_of_mem_take member)
    rw [filled] at first
    have joined : type :: 0x20 :: (name ++ newline :: more) =
        (type :: 0x20 :: name.take 97) ++ (name.drop 97 ++ newline :: more) := by
      rw [List.cons_append, List.cons_append, ← List.append_assoc, List.take_append_drop]
    refine ⟨⟨name.drop 97 ++ newline :: more, false⟩, ?_, ?_⟩
    · rw [joined]
      exact congrArg (·, none) first
    · have left_short : (name.drop 97).length < 99 := by
        rw [List.length_drop]
        omega
      have left_names : ∀ c ∈ name.drop 97, Graphic c :=
        fun c member => names c (List.mem_of_mem_drop member)
      have whole : startsNumber (name.drop 97) = false := whole
      cases left : name.drop 97 with
      | nil => exact Or.inl (ahead_newline more)
      | cons c rest =>
        rw [left] at whole left_short left_names
        exact Or.inr ⟨rfl, _, readSymbol_left left_short left_names whole, ahead_here more⟩

theorem readLines_step {n : Nat} {f f' : Stream} {e : Option SymbolEntry} {table t : List SymbolEntry}
    (more : f.feof = false) (symbol : readSymbol f = (f', e)) (read : readLines n f table = some t) :
    ∃ n', readLines n' f' (table ++ e.toList) = some t := by
  cases n with
  | zero => cases read
  | succ n =>
    rw [readLines, more, symbol] at read
    exact ⟨n, read⟩

theorem readLines_over {n : Nat} {f : Stream} {table t : List SymbolEntry} (met : f.feof = true)
    (read : readLines n f table = some t) : t = table := by
  cases n with
  | zero => cases read
  | succ n =>
    rw [readLines, if_pos met] at read
    exact (Option.some.inj read).symm

theorem readSymbol_blank {f : Stream} (ahead : Ahead f []) : readSymbol f = (⟨[], true⟩, none) := by
  have skipped : skipSpace f = ⟨[], true⟩ := by
    unfold skipSpace
    rw [ahead.rest]
    exact congrArg _ (Bool.or_true _)
  unfold readSymbol
  rw [← scanHex_skip f, skipped]
  rfl

/-- Where every line is read whole, the table holds the lines with an address. -/
theorem readLines_listed {lines : List Line} (formed : ∀ line ∈ lines, line.Formed)
    (whole : ∀ line ∈ lines, line.Whole) {n : Nat} {f : Stream} {table t : List SymbolEntry}
    (ahead : Ahead f (listed lines)) (read : readLines n f table = some t) :
    t = table ++ entries lines := by
  induction lines generalizing n f table with
  | nil =>
    rw [entries, List.filterMap_nil, List.append_nil]
    by_cases met : f.feof = true
    · exact readLines_over met read
    · obtain ⟨n', rest⟩ :=
        readLines_step (Bool.not_eq_true _ ▸ met) (readSymbol_blank ahead) read
      exact (readLines_over rfl rest).trans (List.append_nil table)
  | cons line lines ih =>
    have ih := @ih (fun line member => formed line (List.mem_cons_of_mem _ member))
      fun line member => whole line (List.mem_cons_of_mem _ member)
    cases line with
    | defined address type name =>
      have here := formed _ List.mem_cons_self
      obtain ⟨d, digits, small, first⟩ := @hexText_first 16 (by decide) address
      have text : listed (Line.defined address type name :: lines) =
          hexText 16 address ++ 0x20 :: type :: 0x20 :: (name ++ newline :: listed lines) := by
        simp [listed, Line.text]
      rw [text, first, List.cons_append] at ahead
      obtain ⟨more, start⟩ := @readSymbol_ahead f [] _ _ ahead nofun (hexChar_graphic small)
      rw [← List.cons_append, ← first, readSymbol_defined here] at start
      obtain ⟨n', rest⟩ := readLines_step more start read
      rw [ih (ahead_skip (ahead_newline (listed lines))) rest]
      exact List.append_assoc ..
    | undefined type name =>
      have here := formed _ List.mem_cons_self
      have text : listed (Line.undefined type name :: lines) =
          List.replicate 17 0x20 ++ type :: 0x20 :: (name ++ newline :: listed lines) := by
        simp [listed, Line.text]
      rw [text] at ahead
      obtain ⟨more, start⟩ := readSymbol_ahead ahead (blanks_space 17) (undefined_type here.1).1
      obtain ⟨f', first, after⟩ := @readSymbol_undefined type name (listed lines) here
        (whole _ List.mem_cons_self)
      obtain ⟨n', rest⟩ := readLines_step more (start.trans first) read
      rw [Option.toList_none, List.append_nil] at rest
      rcases after with ahead | ⟨more, f'', second, ahead⟩
      · exact ih ahead rest
      · obtain ⟨n'', rest⟩ := readLines_step more second rest
        rw [Option.toList_none, List.append_nil] at rest
        exact ih ahead rest

theorem readSymbol_progress (f : Stream) : Progress f (readSymbol f).1 := by
  unfold readSymbol
  have first := scanHex_length f
  cases scanned : scanHex f with
  | ended g => exact Or.inl (scanHex_ended scanned)
  | mismatch g =>
    rw [scanned] at first
    exact (fgets_progress 98 g).imp_right fun less => Nat.lt_of_lt_of_le less first
  | value address g =>
    have shorter := scanHex_value scanned
    have type := Nat.le_trans (scanChar_length (skipSpace g)) (skipSpace_length g)
    right
    dsimp only
    cases char : scanChar (skipSpace g) with
    | ended h | mismatch h =>
      rw [char] at type
      exact Nat.lt_of_le_of_lt (Nat.le_trans (fgets_length 99 h) type) shorter
    | value c h =>
      rw [char] at type
      have name := Nat.le_trans (scanWord_length 99 (skipSpace h)) (skipSpace_length h)
      dsimp only
      cases word : scanWord 99 (skipSpace h) with
      | ended k | mismatch k =>
        rw [word] at name
        exact Nat.lt_of_le_of_lt (Nat.le_trans (fgets_length 99 k) (Nat.le_trans name type)) shorter
      | value string k =>
        rw [word] at name
        exact Nat.lt_of_le_of_lt
          (Nat.le_trans (skipSpace_length k) (Nat.le_trans name type)) shorter

theorem readLines_returns {n : Nat} {f : Stream} (table : List SymbolEntry)
    (enough : f.feof = true ∧ 0 < n ∨ f.rest.length + 1 < n) :
    ∃ t, readLines n f table = some t := by
  induction n generalizing f table with
  | zero => omega
  | succ n ih =>
    by_cases ended : f.feof = true
    · exact ⟨table, if_pos ended⟩
    · rw [readLines, if_neg ended]
      rcases enough with ⟨met, _⟩ | enough
      · exact absurd met ended
      · apply ih
        rcases readSymbol_progress f with met | shorter
        · exact Or.inl ⟨met, by omega⟩
        · exact Or.inr (by omega)

/- The loop ends on any text. -/
theorem readMap_returns (text : List UInt8) : ∃ table, readMap text = some table :=
  readLines_returns [] (Or.inr (Nat.lt_succ_self _))

/-- The table of a listing. -/
theorem readMap_listed {lines : List Line} (formed : ∀ line ∈ lines, line.Formed)
    (whole : ∀ line ∈ lines, line.Whole) : readMap (listed lines) = some (entries lines) := by
  obtain ⟨table, read⟩ := readMap_returns (listed lines)
  rw [read, readLines_listed formed whole (ahead_here _) read]
  rfl

end Kallsyms

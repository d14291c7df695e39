import Q2os.Pieces
import Q2os.StateRuns
import Q2os.StringCopy

/- parse_command of the shell: a line is cut into words in place, and the first word is looked up. -/
namespace CommandLine
open StateRuns Pieces
open PathWalk (CString)
open StringCopy (Holds chars chars_end holds_cons holds_nil)

/- The line buffer, with the offsets in it that were loaded and stored. -/
structure Buffer where
  bytes : Nat → UInt8
  touched : List Nat

abbrev Shell (α : Type) := StateT Buffer Option α

def bufferSize : Nat := 256

def load (i : Nat) : Shell UInt8 := fun s => some (s.bytes i, { s with touched := i :: s.touched })

def store (i : Nat) (c : UInt8) : Shell Unit :=
  modify fun s => ⟨Function.update s.bytes i c, i :: s.touched⟩

def space : UInt8 := 0x20

def skipSpaces : Nat → Nat → Shell Nat
  | 0, _ => failure
  | n + 1, j => do
    if (← load j) = space then skipSpaces n (j + 1)
    else return j

def skipWord : Nat → Nat → Shell Nat
  | 0, _ => failure
  | n + 1, j => do
    if (← load j) = 0 then return j
    else if (← load j) = space then return j
    else skipWord n (j + 1)

def lastOfWord (i : Nat) : Shell Bool := do
  if (← load i) = space then return false
  else if (← load (i + 1)) = space then return true
  else return (← load (i + 1)) = 0

/- The rounds of for(i = j;i<256;i++) that are left, with i and argc. -/
def countWords : Nat → Nat → Nat → Shell Nat
  | 0, _, argc => return argc
  | n + 1, i, argc => do
    if (← load i) = 0 then return argc
    else
      let last ← lastOfWord i
      countWords n (i + 1) (if last then argc + 1 else argc)

/- for(i = 0;i < *argc && j < 256;i++), with the pointers that go to argv as offsets in buf. -/
def cutWords (rounds : Nat) : Nat → Nat → Shell (List Nat)
  | 0, _ => return []
  | n + 1, j =>
    if j < bufferSize then do
      let last ← skipWord rounds j
      store last 0
      let next ← skipSpaces rounds (last + 1)
      let rest ← cutWords rounds n next
      return j :: rest
    else return []

/- strcmp against a name, which comes second: signed bytes are compared. -/
def strcmp (first : Nat) : List UInt8 → Shell Int
  | [] => do
    if (← load first) = 0 then return 0
    else return if (0 : Int) < (← load first).toInt8.toInt then 1 else -1
  | c :: name => do
    if (← load first) = c then strcmp (first + 1) name
    else return if c.toInt8.toInt < (← load first).toInt8.toInt then 1 else -1

def shellInternalCmd : List (List UInt8) :=
  [[0x63, 0x64], [0x6c, 0x73], [0x70, 0x77, 0x64], [0x63, 0x61, 0x74], [0x74, 0x6f, 0x75, 0x63, 0x68],
    [0x72, 0x6d], [0x6d, 0x6b, 0x64, 0x69, 0x72], [0x72, 0x6d, 0x64, 0x69, 0x72], [0x65, 0x78, 0x65, 0x63],
    [0x72, 0x65, 0x62, 0x6f, 0x6f, 0x74]]

def findFrom (cmd : Nat) : Nat → List (List UInt8) → Shell Int
  | _, [] => return -1
  | i, name :: names => do
    if (← strcmp cmd name) = 0 then return i
    else findFrom cmd (i + 1) names

def findCmd (cmd : Nat) : Shell Int := findFrom cmd 0 shellInternalCmd

structure Parsed where
  index : Int
  argc : Nat
  /-- The array that malloc gives, if it is asked: cleared, then the pointers from its start on. -/
  argv : Option (List (Option Nat))
deriving DecidableEq, Repr

def parseCommand (rounds : Nat) : Shell Parsed := do
  let j ← skipSpaces rounds 0
  let argc ← countWords (bufferSize - j) j 0
  if argc = 0 then return ⟨-1, 0, none⟩
  else
    let pointers ← cutWords rounds argc j
    let argv := pointers.map some ++ List.replicate (argc + 1 - pointers.length) none
    match argv with
    | some cmd :: _ =>
      let index ← findCmd cmd
      return ⟨index, argc, some argv⟩
    | _ => failure

def isSpace (c : { c : UInt8 // c ≠ 0 }) : Bool := c.1 = space

def words (line : CString) : List CString := pieces isSpace line

def Line (bytes : Nat → UInt8) (j : Nat) (text : CString) : Prop :=
  ∀ i, j + i < bufferSize → bytes (j + i) = chars text i

structure Looked (s s' : Buffer) : Prop where
  bytes : s'.bytes = s.bytes
  touched : ∀ i ∈ s'.touched, i ∈ s.touched ∨ i < bufferSize

section lines
variable {bytes : Nat → UInt8} {j : Nat} {text : CString} {c : { c : UInt8 // c ≠ 0 }}

theorem chars_past {i : Nat} (outside : text.length ≤ i) : chars text i = 0 :=
  dif_neg (Nat.not_lt.mpr outside)

theorem Line.first (line : Line bytes j (c :: text)) (inside : j < bufferSize) : bytes j = c.1 :=
  line 0 inside

theorem Line.tail (line : Line bytes j (c :: text)) : Line bytes (j + 1) text := by
  intro i inside
  rw [Nat.add_assoc, Nat.add_comm 1 i] at inside ⊢
  rw [line (i + 1) inside]
  exact StringCopy.chars_succ i

theorem Line.ended (line : Line bytes j []) (inside : j < bufferSize) : bytes j = 0 := line 0 inside

theorem Line.past (line : Line bytes j []) : Line bytes (j + 1) [] := by
  intro i inside
  rw [Nat.add_assoc] at inside ⊢
  rw [line (1 + i) inside, chars_past (Nat.zero_le _), chars_past (Nat.zero_le _)]

theorem Line.drop {front : CString} (line : Line bytes j (front ++ text)) :
    Line bytes (j + front.length) text := by
  induction front generalizing j with
  | nil => exact line
  | cons d front ih =>
    have rest := ih (Line.tail line)
    rwa [List.length_cons, Nat.add_comm front.length 1, ← Nat.add_assoc]

end lines

section passes
variable {s s' t : Buffer} {text : CString} {j : Nat}

theorem looked_refl : Looked s s := ⟨rfl, fun _ member => Or.inl member⟩

theorem Looked.trans (first : Looked s s') (second : Looked s' t) : Looked s t :=
  ⟨second.bytes.trans first.bytes, fun i member => (second.touched i member).elim (first.touched i) Or.inr⟩

theorem ends_load {α : Type} {f : UInt8 → Shell α} {goal : α → Buffer → Prop} {i : Nat} (kept : Looked s s')
    (inside : i < bufferSize) (rest : ∀ t, Looked s t → Ends (f (s.bytes i)) t goal) :
    Ends (load i >>= f) s' goal := by
  have looked : Looked s { s' with touched := i :: s'.touched } :=
    kept.trans ⟨rfl, fun k member => (List.mem_cons.mp member).elim (fun here => Or.inr (here ▸ inside)) Or.inl⟩
  apply ends_bind
  refine ⟨_, _, rfl, ?_⟩
  rw [kept.bytes]
  have next := rest _ looked
  rw [kept.bytes] at next
  exact next

theorem skipSpaces_ends {rounds : Nat} (line : Line s.bytes j text) (short : j + text.length < bufferSize)
    (enough : text.length < rounds) :
    Ends (skipSpaces rounds j) s fun j' s' =>
      Looked s s' ∧ j ≤ j' ∧ j' + (text.dropWhile isSpace).length = j + text.length ∧
        Line s.bytes j' (text.dropWhile isSpace) := by
  induction rounds generalizing s j text with
  | zero => omega
  | succ rounds ih =>
    rw [skipSpaces]
    refine ends_load looked_refl (by omega) fun s₁ kept₁ => ?_
    cases text with
    | nil =>
      rw [line.ended (by omega), if_neg (by decide)]
      exact ends_pure ⟨kept₁, Nat.le_refl _, rfl, line⟩
    | cons c text =>
      rw [List.length_cons] at short enough
      rw [line.first (by omega)]
      by_cases here : c.1 = space
      · have blank : isSpace c = true := decide_eq_true here
        rw [if_pos here]
        have line₁ : Line s₁.bytes (j + 1) text := kept₁.bytes ▸ line.tail
        refine ends_mono (ih line₁ (by omega) (by omega)) fun j' s₂ rest => ?_
        obtain ⟨kept₂, later, length, line₂⟩ := rest
        rw [List.dropWhile_cons_of_pos blank, List.length_cons]
        exact ⟨kept₁.trans kept₂, by omega, by omega, kept₁.bytes ▸ line₂⟩
      · have solid : ¬ isSpace c = true := fun blank => here (of_decide_eq_true blank)
        rw [if_neg here, List.dropWhile_cons_of_neg solid]
        exact ends_pure ⟨kept₁, Nat.le_refl _, rfl, line⟩

theorem skipWord_ends {rounds : Nat} (line : Line s.bytes j text) (short : j + text.length < bufferSize)
    (enough : text.length < rounds) :
    Ends (skipWord rounds j) s fun j' s' =>
      Looked s s' ∧ j' = j + (text.takeWhile fun c => !isSpace c).length := by
  induction rounds generalizing s j text with
  | zero => omega
  | succ rounds ih =>
    rw [skipWord]
    refine ends_load looked_refl (by omega) fun s₁ kept₁ => ?_
    cases text with
    | nil =>
      rw [line.ended (by omega), if_pos rfl]
      exact ends_pure ⟨kept₁, rfl⟩
    | cons c text =>
      rw [List.length_cons] at short enough
      rw [line.first (by omega), if_neg c.2]
      refine ends_load kept₁ (by omega) fun s₂ kept₂ => ?_
      rw [line.first (by omega)]
      by_cases here : c.1 = space
      · have stop : (c :: text).takeWhile (fun c => !isSpace c) = [] :=
          List.takeWhile_cons_of_neg (by simp [isSpace, here])
        rw [if_pos here, stop]
        exact ends_pure ⟨kept₂, rfl⟩
      · have more : (c :: text).takeWhile (fun c => !isSpace c) = c :: text.takeWhile fun c => !isSpace c :=
          List.takeWhile_cons_of_pos (by simp [isSpace, here])
        rw [if_neg here, more, List.length_cons]
        have line₂ : Line s₂.bytes (j + 1) text := kept₂.bytes ▸ line.tail
        refine ends_mono (ih line₂ (by omega) (by omega)) fun j' s₃ rest => ?_
        exact ⟨kept₂.trans rest.1, by rw [rest.2]; omega⟩

theorem lastOfWord_ends {c : { c : UInt8 // c ≠ 0 }} (line : Line s.bytes j (c :: text))
    (short : j + text.length + 1 < bufferSize) :
    Ends (lastOfWord j) s fun last s' =>
      Looked s s' ∧ (words (c :: text)).length = (words text).length + if last then 1 else 0 := by
  rw [lastOfWord]
  refine ends_load looked_refl (by omega) fun s₁ kept₁ => ?_
  rw [line.first (by omega)]
  by_cases here : c.1 = space
  · have blank : isSpace c = true := decide_eq_true here
    rw [if_pos here]
    exact ends_pure ⟨kept₁, congrArg List.length (pieces_cut text blank)⟩
  · have solid : isSpace c = false := decide_eq_false here
    rw [if_neg here]
    refine ends_load kept₁ (by omega) fun s₂ kept₂ => ?_
    cases text with
    | nil =>
      rw [line.tail.ended (by omega), if_neg (by decide)]
      refine ends_load kept₂ (by omega) fun s₃ kept₃ => ?_
      rw [line.tail.ended (by omega)]
      refine ends_pure ⟨kept₃, pieces_length_last solid ?_⟩
      intro d member
      cases member
    | cons d text =>
      rw [line.tail.first (by omega)]
      by_cases next : d.1 = space
      · rw [if_pos next]
        refine ends_pure ⟨kept₂, pieces_length_last solid ?_⟩
        intro e member
        cases member
        exact decide_eq_true next
      · rw [if_neg next]
        refine ends_load kept₂ (by omega) fun s₃ kept₃ => ?_
        rw [line.tail.first (by omega)]
        refine ends_pure ⟨kept₃, ?_⟩
        rw [decide_eq_false d.2]
        exact pieces_length_more solid (decide_eq_false next) text

theorem countWords_ends {rounds argc : Nat} (line : Line s.bytes j text)
    (short : j + text.length < bufferSize) (enough : text.length < rounds) :
    Ends (countWords rounds j argc) s fun argc' s' => Looked s s' ∧ argc' = argc + (words text).length := by
  induction rounds generalizing s j text argc with
  | zero => omega
  | succ rounds ih =>
    rw [countWords]
    refine ends_load looked_refl (by omega) fun s₁ kept₁ => ?_
    cases text with
    | nil =>
      rw [line.ended (by omega), if_pos rfl]
      exact ends_pure ⟨kept₁, rfl⟩
    | cons c text =>
      rw [List.length_cons] at short enough
      rw [line.first (by omega), if_neg c.2]
      refine ends_then (lastOfWord_ends (kept₁.bytes ▸ line) (by omega)) fun last s₂ ended => ?_
      have kept₂ := kept₁.trans ended.1
      have line₂ : Line s₂.bytes (j + 1) text := kept₂.bytes ▸ line.tail
      refine ends_mono (ih line₂ (by omega) (by omega)) fun argc' s₃ rest => ?_
      refine ⟨kept₂.trans rest.1, ?_⟩
      rw [rest.2, ended.2]
      split <;> omega

end passes

def Listed (bytes : Nat → UInt8) (pointers : List Nat) (ws : List CString) : Prop :=
  List.Forall₂ (fun p w => p + w.length < bufferSize ∧ Holds bytes p w) pointers ws

structure Cut (j : Nat) (s s' : Buffer) (pointers : List Nat) (ws : List CString) : Prop where
  listed : Listed s'.bytes pointers ws
  before : ∀ a < j, s'.bytes a = s.bytes a
  touched : ∀ i ∈ s'.touched, i ∈ s.touched ∨ i < bufferSize

section cutting
variable {s s' : Buffer} {text : CString} {j : Nat} {bytes : Nat → UInt8}

theorem Line.update {c : UInt8} (line : Line bytes (j + 1) text) :
    Line (Function.update bytes j c) (j + 1) text := by
  intro i inside
  rw [Function.update_of_ne (by omega), line i inside]

theorem word_holds {w more : CString} (line : Line s.bytes j (w ++ more)) (inside : j + w.length < bufferSize)
    (kept : ∀ a ≤ j + w.length, bytes a = Function.update s.bytes (j + w.length) 0 a) : Holds bytes j w := by
  intro i within
  rw [kept (j + i) (by omega)]
  by_cases last : i = w.length
  · rw [last, Function.update_self, chars_past (Nat.le_refl _)]
  · have less : i < w.length := by omega
    have longer : i < (w ++ more).length := by
      rw [List.length_append]
      omega
    rw [Function.update_of_ne (by omega), line i (by omega)]
    unfold chars
    rw [dif_pos longer, dif_pos less, List.getElem_append_left less]

theorem behind_word {more : CString} (line : Line bytes j more)
    (stop : ∀ c ∈ more.head?, isSpace c = true) :
    Line bytes (j + 1) more.tail ∧ words more.tail = words more := by
  cases more with
  | nil => exact ⟨line.past, rfl⟩
  | cons c more => exact ⟨line.tail, (pieces_cut more (stop c rfl)).symm⟩

theorem cutWords_ends {rounds k : Nat} (line : Line s.bytes j text) (count : k = (words text).length)
    (start : ∀ c ∈ text.head?, isSpace c = false) (short : text ≠ [] → j + text.length + 1 < bufferSize)
    (enough : text.length + 1 < rounds) :
    Ends (cutWords rounds k j) s fun pointers s' =>
      Cut j s s' pointers (words text) ∧ (text ≠ [] → pointers.head? = some j) := by
  induction k generalizing s text j with
  | zero =>
    have none_ : words text = [] := List.length_eq_zero_iff.mp count.symm
    have empty : text = [] := by
      cases text with
      | nil => rfl
      | cons c text =>
        rw [words, pieces_cons (start c rfl)] at none_
        cases none_
    rw [cutWords, none_]
    exact ends_pure ⟨⟨List.Forall₂.nil, fun _ _ => rfl, fun _ member => Or.inl member⟩,
      fun some_ => absurd empty some_⟩
  | succ k ih =>
    cases text with
    | nil => cases count
    | cons c text =>
      have solid := start c rfl
      have inside := short (List.cons_ne_nil c text)
      have first : words (c :: text) = (c :: text.takeWhile fun c => !isSpace c) ::
          words (text.dropWhile fun c => !isSpace c) := pieces_cons solid text
      have whole : (c :: text).takeWhile (fun c => !isSpace c) = c :: text.takeWhile fun c => !isSpace c :=
        List.takeWhile_cons_of_pos (by rw [solid]; rfl)
      have parts : c :: text = (c :: text.takeWhile fun c => !isSpace c) ++
          text.dropWhile fun c => !isSpace c := by
        rw [List.cons_append, List.takeWhile_append_dropWhile]
      have stop : ∀ d ∈ (text.dropWhile fun c => !isSpace c).head?, isSpace d = true := dropWhile_stop text
      rw [first, List.length_cons] at count
      have length := congrArg List.length parts
      rw [List.length_append] at length
      have skipped := @skipWord_ends s (c :: text) j rounds line (by omega) (by omega)
      rw [whole] at skipped
      rw [first]
      rw [parts] at line
      generalize (c :: text.takeWhile fun c => !isSpace c) = w at *
      generalize (text.dropWhile fun c => !isSpace c) = more at *
      rw [cutWords, if_pos (by omega)]
      refine ends_then skipped fun last s₁ skipped => ?_
      obtain ⟨kept₁, rfl⟩ := skipped
      refine ends_bind ⟨_, _, rfl, ?_⟩
      obtain ⟨behind, same⟩ : Line s.bytes (j + w.length + 1) more.tail ∧ words more.tail = words more :=
        behind_word line.drop stop
      have tail_length : more.tail.length = more.length - 1 := List.length_tail
      have line₂ : Line (Function.update s₁.bytes (j + w.length) 0) (j + w.length + 1) more.tail :=
        kept₁.bytes ▸ behind.update
      have spaces := @skipSpaces_ends ⟨Function.update s₁.bytes (j + w.length) 0, (j + w.length) :: s₁.touched⟩
        more.tail (j + w.length + 1) rounds line₂ (by omega) (by omega)
      refine ends_then spaces fun next s₃ spaces => ?_
      obtain ⟨kept₃, later, left, line₃⟩ := spaces
      have rest_words : words (more.tail.dropWhile isSpace) = words more :=
        (pieces_dropWhile more.tail).trans same
      have fewer := (List.dropWhile_suffix isSpace (l := more.tail)).length_le
      have rest := @ih s₃ (more.tail.dropWhile isSpace) next (kept₃.bytes ▸ line₃) (by rw [rest_words]; omega)
        (dropWhile_start more.tail)
        (fun some_ => by
          have positive := List.length_pos_iff.mpr some_
          omega) (by omega)
      refine ends_then rest fun pointers s₄ rest => ?_
      obtain ⟨⟨listed, before, touched⟩, _⟩ := rest
      have bytes₄ : ∀ a ≤ j + w.length, s₄.bytes a = Function.update s.bytes (j + w.length) 0 a := by
        intro a low
        rw [before a (by omega), kept₃.bytes, ← kept₁.bytes]
      rw [rest_words] at listed
      refine ends_pure ⟨⟨List.Forall₂.cons ⟨by omega, word_holds line (by omega) bytes₄⟩ listed, ?_, ?_⟩,
        fun _ => rfl⟩
      · intro a low
        rw [bytes₄ a (by omega), Function.update_of_ne (by omega)]
      · intro i member
        rcases touched i member with old | here
        · rcases kept₃.touched i old with old' | here
          · rcases List.mem_cons.mp old' with here | old''
            · exact Or.inr (by omega)
            · exact kept₁.touched i old''
          · exact Or.inr here
        · exact Or.inr here

end cutting

section finding
variable {s s' : Buffer} {w : CString} {p : Nat}

def text (w : CString) : List UInt8 := w.map fun c => c.1

theorem strcmp_ends (name : List UInt8) (solid : ∀ c ∈ name, c ≠ 0) (holds : Holds s.bytes p w)
    (inside : p + w.length < bufferSize) :
    Ends (strcmp p name) s fun r s' => Looked s s' ∧ (r = 0 ↔ text w = name) := by
  induction name generalizing s p w with
  | nil =>
    rw [strcmp]
    refine ends_load looked_refl (by omega) fun s₁ kept₁ => ?_
    cases w with
    | nil =>
      rw [holds_nil.mp holds, if_pos rfl]
      exact ends_pure ⟨kept₁, iff_of_true rfl rfl⟩
    | cons d w =>
      rw [(holds_cons.mp holds).1, if_neg d.2]
      refine ends_load kept₁ (by omega) fun s₂ kept₂ => ?_
      refine ends_pure ⟨kept₂, iff_of_false ?_ (List.cons_ne_nil _ _)⟩
      split <;> decide
  | cons c name ih =>
    have solid' : ∀ d ∈ name, d ≠ 0 := fun d member => solid d (List.mem_cons_of_mem c member)
    rw [strcmp]
    refine ends_load looked_refl (by omega) fun s₁ kept₁ => ?_
    have differs : text w ≠ c :: name → ∀ s₁, Looked s s₁ → Ends (do
        return if c.toInt8.toInt < (← load p).toInt8.toInt then 1 else -1) s₁ fun r s' =>
          Looked s s' ∧ (r = 0 ↔ text w = c :: name) := by
      intro other s₁ kept₁
      refine ends_load kept₁ (by omega) fun s₂ kept₂ => ?_
      refine ends_pure ⟨kept₂, iff_of_false ?_ other⟩
      split <;> decide
    cases w with
    | nil =>
      rw [holds_nil.mp holds, if_neg (solid c List.mem_cons_self).symm]
      exact differs (fun same => by cases same) s₁ kept₁
    | cons d w =>
      obtain ⟨first, rest⟩ := holds_cons.mp holds
      rw [first]
      rw [List.length_cons] at inside
      by_cases same : d.1 = c
      · rw [if_pos same]
        refine ends_mono (ih solid' (kept₁.bytes ▸ rest) (by omega)) fun r s₂ compared => ?_
        refine ⟨kept₁.trans compared.1, compared.2.trans ?_⟩
        show text w = name ↔ d.1 :: text w = c :: name
        rw [same, List.cons.injEq, eq_self_iff_true, true_and]
      · rw [if_neg same]
        exact differs (fun all => same (List.cons.inj all).1) s₁ kept₁

theorem findFrom_ends (names : List (List UInt8)) (i : Nat) (solid : ∀ name ∈ names, ∀ c ∈ name, c ≠ 0)
    (holds : Holds s.bytes p w) (inside : p + w.length < bufferSize) :
    Ends (findFrom p i names) s fun r s' => Looked s s' ∧
      (r = -1 ∧ text w ∉ names ∨ ∃ k, r = (i + k : Nat) ∧ names[k]? = some (text w)) := by
  induction names generalizing s i with
  | nil => exact ends_pure ⟨looked_refl, Or.inl ⟨rfl, List.not_mem_nil⟩⟩
  | cons name names ih =>
    rw [findFrom]
    refine ends_then (strcmp_ends name (solid name List.mem_cons_self) holds inside) fun r s₁ compared => ?_
    obtain ⟨kept₁, same⟩ := compared
    by_cases found : r = 0
    · rw [if_pos found]
      exact ends_pure ⟨kept₁, Or.inr ⟨0, rfl, congrArg some (same.mp found).symm⟩⟩
    · rw [if_neg found]
      have other : text w ≠ name := fun here => found (same.mpr here)
      refine ends_mono (ih (i + 1) (fun name member => solid name (List.mem_cons_of_mem _ member))
        (kept₁.bytes ▸ holds)) fun r s₂ rest => ?_
      refine ⟨kept₁.trans rest.1, ?_⟩
      rcases rest.2 with ⟨none_, missing⟩ | ⟨k, at_, there⟩
      · refine Or.inl ⟨none_, fun member => ?_⟩
        rcases List.mem_cons.mp member with here | later
        · exact other here
        · exact missing later
      · exact Or.inr ⟨k + 1, by rw [at_]; congr 1; omega, there⟩

end finding

/- What parse_command makes of a line. -/
structure Split (line : CString) (parsed : Parsed) (s : Buffer) : Prop where
  argc : parsed.argc = (words line).length
  touched : ∀ i ∈ s.touched, i < bufferSize
  index : (parsed.index = -1 ∧ ∀ w ∈ (words line).head?, text w ∉ shellInternalCmd) ∨
    ∃ k w, parsed.index = (k : Nat) ∧ (words line).head? = some w ∧ shellInternalCmd[k]? = some (text w)
  argv : words line ≠ [] →
    ∃ pointers, parsed.argv = some (pointers.map some ++ [none]) ∧ Listed s.bytes pointers (words line)
  blank : words line = [] → parsed.argv = none

section parsing
variable {line : CString} {s : Buffer} {rounds : Nat}

theorem names_solid : ∀ name ∈ shellInternalCmd, ∀ c ∈ name, c ≠ 0 := by decide +kernel

theorem parseCommand_ends (short : line.length ≤ 254) (fresh : s.touched = []) (holds : Line s.bytes 0 line)
    (enough : bufferSize ≤ rounds) :
    Ends (parseCommand rounds) s fun parsed s' => Split line parsed s' := by
  unfold bufferSize at enough
  rw [parseCommand]
  have spaces := @skipSpaces_ends s line 0 rounds holds (by unfold bufferSize; omega) (by omega)
  refine ends_then spaces fun j s₁ spaces => ?_
  obtain ⟨kept₁, _, length, line₁⟩ := spaces
  have same : words (line.dropWhile isSpace) = words line := pieces_dropWhile line
  have start : ∀ c ∈ (line.dropWhile isSpace).head?, isSpace c = false := dropWhile_start line
  generalize line.dropWhile isSpace = rest at *
  have counted := @countWords_ends s₁ rest j (bufferSize - j) 0 (kept₁.bytes ▸ line₁)
    (by unfold bufferSize; omega) (by unfold bufferSize; omega)
  refine ends_then counted fun argc s₂ counted => ?_
  obtain ⟨kept₂, argc_eq⟩ := counted
  have kept := kept₁.trans kept₂
  rw [Nat.zero_add, same] at argc_eq
  have inside : ∀ s' : Buffer, (∀ i ∈ s'.touched, i ∈ s.touched ∨ i < bufferSize) → ∀ i ∈ s'.touched, i < bufferSize := by
    intro s' touched i member
    have either := touched i member
    rw [fresh] at either
    exact either.resolve_left List.not_mem_nil
  by_cases none_ : argc = 0
  · have blank : words line = [] := List.length_eq_zero_iff.mp (argc_eq.symm.trans none_)
    rw [if_pos none_]
    exact ends_pure {
      argc := by rw [blank]; rfl
      touched := inside s₂ kept.touched
      index := Or.inl ⟨rfl, fun w member => by rw [blank] at member; cases member⟩
      argv := fun some_ => absurd blank some_
      blank := fun _ => rfl }
  · have some_ : words line ≠ [] := fun blank => none_ (by rw [argc_eq, blank]; rfl)
    have more : rest ≠ [] := fun empty => some_ (by rw [← same, empty]; rfl)
    rw [if_neg none_]
    have cuts := @cutWords_ends s₂ rest j rounds argc (kept.bytes ▸ line₁) (by rw [argc_eq, same]) start
      (fun _ => by unfold bufferSize; omega) (by omega)
    refine ends_then cuts fun pointers s₃ cuts => ?_
    obtain ⟨⟨listed, _, touched⟩, first⟩ := cuts
    rw [same] at listed
    have count : argc + 1 - pointers.length = 1 := by
      rw [listed.length_eq, ← argc_eq]
      omega
    have argv : pointers.map some ++ List.replicate (argc + 1 - pointers.length) none =
        pointers.map some ++ [none] := by rw [count]; rfl
    rw [argv]
    have touched₃ : ∀ i ∈ s₃.touched, i < bufferSize :=
      inside s₃ fun i member => (touched i member).elim (kept.touched i) Or.inr
    cases split : words line with
    | nil => exact absurd split some_
    | cons w ws =>
      rw [split] at listed
      cases listed with
      | @cons p _ pointers' _ here listed' =>
        have found := findFrom_ends (s := s₃) shellInternalCmd 0 names_solid here.2 here.1
        refine ends_then found fun index s₄ found => ?_
        obtain ⟨kept₄, either⟩ := found
        refine ends_pure ?_
        exact {
          argc := by rw [argc_eq, split]
          touched := fun i member => (kept₄.touched i member).elim (touched₃ i) id
          index := by
            rcases either with ⟨missing, other⟩ | ⟨k, at_, there⟩
            · refine Or.inl ⟨missing, fun v member => ?_⟩
              rw [split] at member
              cases member
              exact other
            · exact Or.inr ⟨k, w, by rw [Nat.zero_add] at at_; exact at_, by rw [split]; rfl, there⟩
          argv := fun _ => ⟨p :: pointers', rfl, by
            rw [split, kept₄.bytes]
            exact List.Forall₂.cons here listed'⟩
          blank := fun blank => by rw [split] at blank; cases blank }

end parsing

/-- A line is split into its words, and the first of them is looked up. -/
theorem parse_command_split {line : CString} (short : line.length ≤ 254) {s : Buffer} (fresh : s.touched = [])
    (holds : Line s.bytes 0 line) {rounds : Nat} (enough : bufferSize ≤ rounds) :
    ∃ parsed s', parseCommand rounds s = some (parsed, s') ∧ Split line parsed s' :=
  parseCommand_ends short fresh holds enough

theorem letter_solid : (0x61 : UInt8) ≠ 0 := by decide

def removal : CString :=
  [⟨0x20, by decide⟩, ⟨0x72, by decide⟩, ⟨0x6d, by decide⟩, ⟨0x20, by decide⟩, ⟨0x20, by decide⟩,
    ⟨0x61, letter_solid⟩]

theorem parse_command_removal :
    ∃ parsed s', parseCommand 256 ⟨chars removal, []⟩ = some (parsed, s') ∧ Split removal parsed s' :=
  parse_command_split (by decide) rfl (fun i _ => congrArg (chars removal) (Nat.zero_add i)) (Nat.le_refl _)

/- For the empty line there is no array, and so no argv[0]. -/
theorem parse_command_blank : ∃ parsed s, parseCommand 256 ⟨chars [], []⟩ = some (parsed, s) ∧
    parsed.argc = 0 ∧ ¬ ∃ argv, parsed.argv = some argv ∧ argv[parsed.argc]? = some none :=
  ⟨_, _, rfl, rfl, fun listed => by obtain ⟨argv, array, _⟩ := listed; cases array⟩

end CommandLine

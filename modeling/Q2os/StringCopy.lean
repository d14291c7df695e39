import Q2os.AddressSpace
import Q2os.OpenFailure

/- Strings and words in the user half of an address space, and strcpy on strings that may overlap
   their copies. -/
namespace StringCopy
open ByteMemory Fat32 OpenFailure
open PageAllocator (pageSize)
open AddressSpace (userEnd)
open PathWalk (CString)

/-- The bytes of the user half, and which of its pages are mapped. -/
structure Space where
  memory : Memory
  mapped : Nat → Bool
  user : ∀ page, mapped page = true → page < userEnd / pageSize

/- n bytes from a on can be used without a page fault, which ends in a halted processor. -/
def Space.Accessible (s : Space) (a n : Nat) : Prop := ∀ i < n, s.mapped ((a + i) / pageSize) = true

instance (s : Space) (a n : Nat) : Decidable (s.Accessible a n) :=
  inferInstanceAs (Decidable (∀ i < n, _))

def Space.withMemory (s : Space) (memory : Memory) : Space := { s with memory := memory }

def word (m : Memory) (a : Nat) : Nat := getLittle m a 8

def loadWord (s : Space) (a : Nat) : Option Nat := if s.Accessible a 8 then some (word s.memory a) else none

def storeWord (s : Space) (a value : Nat) : Option Space :=
  if s.Accessible a 8 then some (s.withMemory (setLittle s.memory a value 8)) else none

/- strnlen_user with the bytes that strlen looks at, up to the 0 or to the end of ecx. -/
def strnlenUser (s : Space) (src maxlen : Nat) : Option Nat :=
  if s.Accessible src ((stringAt s.memory src (2 ^ 32 - 2)).length + 1)
  then some (OpenFailure.strnlenUser s.memory src maxlen) else none

/- lodsb, stosb and the test of al, up to so many times. -/
def strcpy : Nat → Space → Nat → Nat → Option Space
  | 0, _, _, _ => none
  | n + 1, s, dest, src =>
    if s.Accessible src 1 ∧ s.Accessible dest 1 then
      let s' := s.withMemory (Function.update s.memory dest (s.memory src))
      if s.memory src = 0 then some s' else strcpy n s' (dest + 1) (src + 1)
    else none

def chars (text : CString) : Memory := fun i => if inside : i < text.length then text[i].1 else 0

def Holds (m : Memory) (p : Nat) (text : CString) : Prop := ∀ i ≤ text.length, m (p + i) = chars text i

def putText (m : Memory) (d : Nat) (text : CString) : Memory := copy (chars text) 0 m d (text.length + 1)

section strings
variable {m m' : Memory} {p d : Nat} {text other : CString} {c : { c : UInt8 // c ≠ 0 }}

theorem chars_end : chars text text.length = 0 := dif_neg (Nat.lt_irrefl _)

theorem chars_solid {i : Nat} (inside : i < text.length) : chars text i ≠ 0 := by
  unfold chars
  rw [dif_pos inside]
  exact text[i].2

theorem chars_succ (i : Nat) : chars (c :: text) (i + 1) = chars text i := by
  have more : i + 1 < (c :: text).length ↔ i < text.length := Nat.succ_lt_succ_iff
  unfold chars
  by_cases inside : i < text.length
  · rw [dif_pos inside, dif_pos (more.mpr inside), List.getElem_cons_succ]
  · rw [dif_neg inside, dif_neg (fun longer => inside (more.mp longer))]

theorem Holds.ended (holds : Holds m p text) : m (p + text.length) = 0 :=
  (holds text.length (Nat.le_refl _)).trans chars_end

theorem holds_congr (holds : Holds m p text) (same : ∀ i ≤ text.length, m' (p + i) = m (p + i)) :
    Holds m' p text := fun i inside => (same i inside).trans (holds i inside)

theorem holds_nil : Holds m p [] ↔ m p = 0 := by
  constructor
  · exact Holds.ended
  · intro first i inside
    rw [Nat.le_zero.mp inside]
    exact first

theorem holds_cons : Holds m p (c :: text) ↔ m p = c.1 ∧ Holds m (p + 1) text := by
  constructor
  · intro holds
    refine ⟨holds 0 (Nat.zero_le _), fun i inside => ?_⟩
    rw [Nat.add_assoc, Nat.add_comm 1 i, holds (i + 1) (Nat.succ_le_succ inside), chars_succ]
  · intro both i inside
    cases i with
    | zero => exact both.1
    | succ i =>
      have rest := both.2 i (Nat.le_of_succ_le_succ inside)
      rw [Nat.add_assoc, Nat.add_comm 1 i] at rest
      rw [rest, chars_succ]

theorem Holds.unique (holds : Holds m p text) (also : Holds m p other) : text = other := by
  induction text generalizing p other with
  | nil =>
    cases other with
    | nil => rfl
    | cons c other => exact absurd ((holds_cons.mp also).1.symm.trans (holds_nil.mp holds)) c.2
  | cons c text ih =>
    cases other with
    | nil => exact absurd ((holds_cons.mp holds).1.symm.trans (holds_nil.mp also)) c.2
    | cons c' other =>
      obtain ⟨first, rest⟩ := holds_cons.mp holds
      obtain ⟨first', rest'⟩ := holds_cons.mp also
      rw [ih rest rest', Subtype.ext (first.symm.trans first')]

theorem putText_inside {i : Nat} (inside : i ≤ text.length) : putText m d text (d + i) = chars text i := by
  have moved := copy_inside (chars text) m 0 d (text.length + 1) i (Nat.lt_succ_of_le inside)
  rw [Nat.zero_add] at moved
  exact moved

theorem putText_outside {a : Nat} (outside : a < d ∨ d + text.length < a) :
    putText m d text a = m a := copy_outside _ _ _ _ _ _ (by omega)

theorem holds_putText : Holds (putText m d text) d text := fun _ inside => putText_inside inside

theorem putText_nil : putText m d [] = Function.update m d 0 := by
  funext a
  by_cases here : a = d
  · rw [here, Function.update_self]
    exact holds_nil.mp holds_putText
  · have far : a < d ∨ d + ([] : CString).length < a := by
      rw [List.length_nil]
      omega
    rw [Function.update_of_ne here, putText_outside far]

theorem putText_cons : putText m d (c :: text) = putText (Function.update m d c.1) (d + 1) text := by
  funext a
  by_cases here : a = d
  · rw [here, putText_outside (Or.inl (Nat.lt_succ_self d)), Function.update_self]
    exact (holds_cons.mp holds_putText).1
  · by_cases inside : d < a ∧ a ≤ d + 1 + text.length
    · obtain ⟨i, rfl⟩ := Nat.exists_eq_add_of_le (Nat.succ_le_of_lt inside.1)
      have within : i ≤ text.length := by omega
      have place : d.succ + i = d + (i + 1) := by omega
      rw [putText_inside within, place, putText_inside (Nat.succ_le_succ within), chars_succ]
    · have short : (c :: text).length = text.length + 1 := rfl
      rw [putText_outside (by omega), putText_outside (by omega), Function.update_of_ne here]

theorem stringAt_holds (holds : Holds m p text) {n : Nat} (room : text.length ≤ n) :
    stringAt m p n = text := by
  apply stringAt_stored
  · intro i inside
    rw [holds i (Nat.le_of_lt inside), chars, dif_pos inside]
  · exact holds.ended
  · exact room

end strings

section access
variable {s : Space} {a n : Nat}

theorem Space.Accessible.part {b k : Nat} (accessible : s.Accessible a n) (low : a ≤ b)
    (high : b + k ≤ a + n) : s.Accessible b k := by
  intro i inside
  have place : a + (b - a + i) = b + i := by omega
  rw [← place]
  exact accessible _ (by omega)

theorem Space.Accessible.low (accessible : s.Accessible a (n + 1)) : a + n < userEnd := by
  have page := s.user _ (accessible n (Nat.lt_succ_self n))
  have pages : userEnd / pageSize * pageSize = userEnd := by decide
  have inside := Nat.lt_mul_of_div_lt page (by decide)
  rw [pages] at inside
  exact inside

theorem accessible_page {page : Nat} (mapped : s.mapped page = true) (low : pageSize * page ≤ a)
    (high : a + n ≤ pageSize * page + pageSize) : s.Accessible a n := by
  intro i inside
  have place : (a + i) / pageSize = page := by
    apply Nat.div_eq_of_lt_le
    · rw [Nat.mul_comm]
      omega
    · rw [Nat.succ_mul, Nat.mul_comm]
      omega
  rw [place]
  exact mapped

end access

/-- A copy that ends is one of a string which the copy does not run into, and which it leaves at the
    destination. -/
theorem strcpy_result {n d p : Nat} {s s' : Space} (ran : strcpy n s d p = some s') :
    ∃ text : CString, Holds s.memory p text ∧ ¬ (p < d ∧ d ≤ p + text.length) ∧
      s' = s.withMemory (putText s.memory d text) := by
  induction n generalizing s d p with
  | zero => cases ran
  | succ n ih =>
    unfold strcpy at ran
    split at ran
    · dsimp only at ran
      split at ran
      · next last =>
        cases ran
        refine ⟨[], holds_nil.mpr last, fun both => ?_, ?_⟩
        · have none_ : ([] : CString).length = 0 := rfl
          omega
        · rw [putText_nil, last]
      · next solid =>
        obtain ⟨text, holds, apart, result⟩ := ih ran
        have holds : Holds (Function.update s.memory d (s.memory p)) (p + 1) text := holds
        -- the 0 of the rest is not where the first character has just been put
        have no_end : d ≠ p + 1 + text.length := by
          intro end_
          have zero := holds.ended
          rw [← end_, Function.update_self] at zero
          exact solid zero
        have kept : Holds s.memory (p + 1) text := by
          refine holds_congr holds fun i inside => ?_
          rw [Function.update_of_ne]
          omega
        refine ⟨⟨s.memory p, solid⟩ :: text, holds_cons.mpr ⟨rfl, kept⟩, fun both => ?_, ?_⟩
        · have more : (⟨s.memory p, solid⟩ :: text).length = text.length + 1 := rfl
          omega
        · rw [result, putText_cons]
          rfl
    · cases ran

theorem strcpy_copies {n d p : Nat} {s : Space} {text : CString} (holds : Holds s.memory p text)
    (source : s.Accessible p (text.length + 1)) (target : s.Accessible d (text.length + 1))
    (apart : ¬ (p < d ∧ d ≤ p + text.length)) (enough : text.length < n) :
    strcpy n s d p = some (s.withMemory (putText s.memory d text)) := by
  induction text generalizing n d p s with
  | nil =>
    obtain ⟨n, rfl⟩ := Nat.exists_eq_add_of_lt enough
    have last := holds_nil.mp holds
    unfold strcpy
    rw [if_pos ⟨source, target⟩]
    dsimp only
    rw [if_pos last, putText_nil, last]
  | cons c text ih =>
    obtain ⟨n, rfl⟩ : ∃ k, n = k + 1 := ⟨n - 1, by omega⟩
    have more : (c :: text).length = text.length + 1 := rfl
    rw [more] at source target apart enough
    obtain ⟨first, rest⟩ := holds_cons.mp holds
    have solid : ¬ s.memory p = 0 := by
      rw [first]
      exact c.2
    unfold strcpy
    rw [if_pos ⟨source.part (Nat.le_refl _) (by omega), target.part (Nat.le_refl _) (by omega)⟩]
    dsimp only
    rw [if_neg solid, first]
    have kept : Holds (Function.update s.memory d c.1) (p + 1) text := by
      refine holds_congr rest fun i inside => ?_
      rw [Function.update_of_ne]
      omega
    have copied := @ih n (d + 1) (p + 1) (s.withMemory (Function.update s.memory d c.1)) kept
      (source.part (Nat.le_succ _) (by omega)) (target.part (Nat.le_succ _) (by omega)) (by omega)
      (by omega)
    rw [copied, putText_cons]
    rfl

/-- strnlen_user on a string of the user half. -/
theorem strnlenUser_holds {s : Space} {p maxlen : Nat} {text : CString} (holds : Holds s.memory p text)
    (accessible : s.Accessible p (text.length + 1)) (short : text.length < 2 ^ 31) :
    strnlenUser s p maxlen = some (min text.length maxlen) := by
  have low := accessible.low
  have found := @stringAt_holds s.memory p text holds (2 ^ 32 - 2) (by omega)
  have inside : p + text.length ≤ UserMemory.taskSize := by
    have ends : userEnd = UserMemory.taskSize + 1 := by decide
    omega
  have length : strlen s.memory p = text.length := by
    rw [strlen, found, toInt32_small short]
  have size : ((text.length : Int) % 2 ^ 64).toNat = text.length := by omega
  unfold strnlenUser
  rw [found, if_pos accessible]
  simp only [OpenFailure.strnlenUser, length, size, UserMemory.verifyArea_of_le inside, ↓reduceIte]

theorem strnlenUser_result {s : Space} {p maxlen n : Nat} {text : CString}
    (call : strnlenUser s p maxlen = some n) (holds : Holds s.memory p text) :
    n ≤ maxlen ∧ (text.length < 2 ^ 31 → n = min text.length maxlen) := by
  have called := call
  unfold strnlenUser at called
  split at called
  · next accessible =>
    constructor
    · rw [← Option.some.inj called]
      unfold OpenFailure.strnlenUser
      dsimp only
      split
      · exact Nat.min_le_right _ _
      · exact Nat.zero_le _
    · intro short
      rw [stringAt_holds holds (by omega)] at accessible
      rw [strnlenUser_holds holds accessible short] at call
      exact (Option.some.inj call).symm
  · cases called

end StringCopy

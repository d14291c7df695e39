import Mathlib.Data.BitVec

/- Words that are laid out in bit fields: values put at places, words put together of fields, by
   a bitwise or as well as by a sum, and read back field by field. -/
namespace BitFields
variable {w : Nat}

structure Field where
  place : Nat
  {width : Nat}
  value : BitVec width

def Field.Within (w : Nat) (f : Field) : Prop := f.place + f.width ≤ w

def Field.Apart (f g : Field) : Prop :=
  f.place + f.width ≤ g.place ∨ g.place + g.width ≤ f.place

/- The word with one field filled; what is beyond its highest bit is lost. -/
def Field.put (w : Nat) (f : Field) : BitVec w := f.value.setWidth w <<< f.place

def layOut (w : Nat) : List Field → BitVec w
  | [] => 0#w
  | f :: fields => f.put w ||| layOut w fields

/- Fields of a word that do not run into each other. -/
structure Layout (w : Nat) where
  fields : List Field
  apart : fields.Pairwise Field.Apart
  within : ∀ f ∈ fields, f.Within w

def Layout.word (l : Layout w) : BitVec w := layOut w l.fields

section one
variable {f g : Field}

theorem Field.apart_symm (apart : f.Apart g) : g.Apart f := Or.symm apart

theorem getLsbD_put (f : Field) (i : Nat) : (f.put w).getLsbD i =
    (decide (i < w) && !decide (i < f.place) && f.value.getLsbD (i - f.place)) := by
  rw [Field.put, BitVec.getLsbD_shiftLeft, BitVec.getLsbD_setWidth]
  by_cases inside : i < w
  · have shifted : i - f.place < w := by omega
    simp [inside, shifted]
  · simp [inside]

theorem get_put (within : f.Within w) : (f.put w).extractLsb' f.place f.width = f.value := by
  apply BitVec.eq_of_getLsbD_eq
  intro i low
  have inside : f.place + i < w := by unfold Field.Within at within; omega
  rw [BitVec.getLsbD_extractLsb', getLsbD_put]
  simp [low, inside]

theorem get_put_apart (apart : g.Apart f) : (f.put w).extractLsb' g.place g.width = 0 := by
  apply BitVec.eq_of_getLsbD_eq
  intro i low
  rw [BitVec.getLsbD_extractLsb', getLsbD_put]
  rcases apart with below | above
  · have before : g.place + i < f.place := by omega
    simp [before]
  · have beyond : f.width ≤ g.place + i - f.place := by omega
    simp [BitVec.getLsbD_of_ge _ _ beyond]

end one

section many
variable {fields : List Field} {f : Field}

theorem get_layOut_apart (apart : ∀ g ∈ fields, f.Apart g) :
    (layOut w fields).extractLsb' f.place f.width = 0#f.width := by
  induction fields with
  | nil => exact BitVec.extractLsb'_zero
  | cons g fields ih =>
    have rest := ih fun h member => apart h (List.mem_cons_of_mem g member)
    rw [layOut, BitVec.extractLsb'_or, get_put_apart (apart g List.mem_cons_self), rest]
    exact BitVec.zero_or

theorem get_layOut (apart : fields.Pairwise Field.Apart) (member : f ∈ fields)
    (within : f.Within w) : (layOut w fields).extractLsb' f.place f.width = f.value := by
  induction fields with
  | nil => exact absurd member List.not_mem_nil
  | cons g fields ih =>
    have ⟨first, rest⟩ := List.pairwise_cons.mp apart
    rw [layOut, BitVec.extractLsb'_or]
    rcases List.mem_cons.mp member with rfl | later
    · rw [get_put within, get_layOut_apart first]
      exact BitVec.or_zero
    · rw [get_put_apart (Field.apart_symm (first f later)), ih rest later]
      exact BitVec.zero_or

theorem getLsbD_layOut_apart (apart : ∀ g ∈ fields, f.Apart g) {i : Nat} (low : f.place ≤ i)
    (high : i < f.place + f.width) : (layOut w fields).getLsbD i = false := by
  have bit := congrArg (fun x => x.getLsbD (i - f.place)) (get_layOut_apart (w := w) apart)
  have inside : i - f.place < f.width := by omega
  have same : f.place + (i - f.place) = i := by omega
  simpa [inside, same] using bit

theorem sum_put (apart : fields.Pairwise Field.Apart) :
    (fields.map (Field.put w)).sum = layOut w fields := by
  induction fields with
  | nil => rfl
  | cons f fields ih =>
    have ⟨first, rest⟩ := List.pairwise_cons.mp apart
    rw [List.map_cons, List.sum_cons, ih rest, layOut]
    apply BitVec.add_eq_or_of_and_eq_zero
    apply BitVec.eq_of_getLsbD_eq
    intro i _
    rw [BitVec.getLsbD_and, getLsbD_put, BitVec.getLsbD_zero]
    by_cases inside : f.place ≤ i ∧ i < f.place + f.width
    · rw [getLsbD_layOut_apart first inside.1 inside.2, Bool.and_false]
    · by_cases low : i < f.place
      · simp [low]
      · have beyond : f.width ≤ i - f.place := by omega
        simp [BitVec.getLsbD_of_ge _ _ beyond]

end many

/- Every field of a layout reads back as it was put in. -/
theorem Layout.get (l : Layout w) :
    ∀ f ∈ l.fields, l.word.extractLsb' f.place f.width = f.value :=
  fun f member => get_layOut l.apart member (l.within f member)

theorem put_add {f g : Field} (apart : f.Apart g) : f.put w + g.put w = f.put w ||| g.put w := by
  have pair : ([f, g].map (Field.put w)).sum = layOut w [f, g] := sum_put (by simpa using apart)
  simpa only [List.map_cons, List.map_nil, List.sum_cons, List.sum_nil, layOut, add_zero,
    BitVec.or_zero] using pair

/- No carry leaves a field: the word can be summed up as well as put together by or. -/
theorem Layout.sum (l : Layout w) : (l.fields.map (Field.put w)).sum = l.word :=
  sum_put l.apart

section shifts

/- A field that is filled from neighbouring bits can be filled in two parts. -/
theorem put_split {v : Nat} (x : BitVec v) (p s a b : Nat) :
    Field.put w ⟨p, x.extractLsb' s (a + b)⟩ =
      Field.put w ⟨p, x.extractLsb' s a⟩ ||| Field.put w ⟨p + a, x.extractLsb' (s + a) b⟩ := by
  apply BitVec.eq_of_getLsbD_eq
  intro i inside
  rw [BitVec.getLsbD_or, getLsbD_put, getLsbD_put, getLsbD_put]
  simp only [BitVec.getLsbD_extractLsb', inside, decide_true, Bool.true_and]
  by_cases before : i < p
  · have also : i < p + a := by omega
    simp [before, also]
  · by_cases low : i < p + a
    · have first : i - p < a := by omega
      have whole : i - p < a + b := by omega
      simp [low, first, whole]
    · have second : ¬ i - p < a := by omega
      have bit : s + a + (i - (p + a)) = s + (i - p) := by omega
      have width : i - p < a + b ↔ i - (p + a) < b := by omega
      simp [before, low, second, bit, width]

@[simp] theorem put_zero (p k : Nat) : Field.put w ⟨p, (0 : BitVec k)⟩ = 0#w := by
  simp [Field.put]

theorem put_shiftLeft (p q : Nat) {k : Nat} (value : BitVec k) :
    Field.put w ⟨p, value⟩ <<< q = Field.put w ⟨p + q, value⟩ :=
  (BitVec.shiftLeft_add _ p q).symm

theorem put_setWidth {f : Field} {v : Nat} (within : f.Within v) :
    (f.put v).setWidth w = f.put w := by
  apply BitVec.eq_of_getLsbD_eq
  intro i inside
  rw [BitVec.getLsbD_setWidth, getLsbD_put, getLsbD_put]
  by_cases low : i < v
  · simp [low, inside]
  · have beyond : f.width ≤ i - f.place := by unfold Field.Within at within; omega
    simp [BitVec.getLsbD_of_ge _ _ beyond]

theorem append_put {a b : Nat} (high : BitVec a) (low : BitVec b) :
    high ++ low = Field.put (a + b) ⟨0, low⟩ ||| Field.put (a + b) ⟨b, high⟩ := by
  rw [← BitVec.setWidth_eq (high ++ low), BitVec.setWidth_append_eq_shiftLeft_setWidth_or,
    BitVec.or_comm, Field.put, Field.put, BitVec.shiftLeft_zero]

theorem mask_low (x : BitVec w) (k : Nat) :
    x &&& BitVec.ofNat w (2 ^ k - 1) = Field.put w ⟨0, x.extractLsb' 0 k⟩ := by
  rw [Field.put, BitVec.shiftLeft_zero]
  apply BitVec.eq_of_getLsbD_eq
  intro i inside
  rw [BitVec.getLsbD_and, BitVec.getLsbD_ofNat, Nat.testBit_two_pow_sub_one,
    BitVec.getLsbD_setWidth, BitVec.getLsbD_extractLsb', Nat.zero_add]
  simp [inside, Bool.and_comm]

theorem get_ushiftRight (x : BitVec w) (s p k : Nat) :
    (x >>> s).extractLsb' p k = x.extractLsb' (s + p) k := by
  apply BitVec.eq_of_getLsbD_eq
  intro i inside
  simp [inside, Nat.add_assoc]

/- What a right shift leaves is one field. -/
theorem ushiftRight_put {s k : Nat} (x : BitVec w) (top : w ≤ s + k) :
    x >>> s = Field.put w ⟨0, x.extractLsb' s k⟩ := by
  rw [Field.put, BitVec.shiftLeft_zero]
  apply BitVec.eq_of_getLsbD_eq
  intro i inside
  rw [BitVec.getLsbD_ushiftRight, BitVec.getLsbD_setWidth, BitVec.getLsbD_extractLsb']
  by_cases low : i < k
  · simp [inside, low]
  · have beyond : w ≤ s + i := by omega
    simp [BitVec.getLsbD_of_ge _ _ beyond]

/- The highest field needs no mask: the shift drops what is above it. -/
theorem shiftLeft_put {p k : Nat} (x : BitVec w) (top : w ≤ p + k) :
    x <<< p = Field.put w ⟨p, x.extractLsb' 0 k⟩ := by
  apply BitVec.eq_of_getLsbD_eq
  intro i inside
  rw [BitVec.getLsbD_shiftLeft, getLsbD_put, BitVec.getLsbD_extractLsb', Nat.zero_add]
  have kept : i - p < k ∨ i < p := by omega
  rcases kept with kept | below
  · simp [kept]
  · simp [below]

end shifts

end BitFields

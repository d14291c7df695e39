import Q2os.Fat32Lookup

/- What the comparison of a name reads of an entry: its first bytes and the long slots before it,
   up to the first that is none. -/
namespace NameMatching
open ByteMemory BlockProgram Fat32

/-- Two views in which entries at some places show the same to FAT32_lookup: up to the flags of
    the short name all bytes, and all 32 of a slot. Before a place there is another one, or no
    slot in either view. -/
structure SameNames (v v' : View) (place : Int → Prop) : Prop where
  byte : ∀ p, place p → ∀ k : Int, 0 ≤ k → k < 20 → v (p + k) = v' (p + k)
  slot : ∀ p, place p → lookupSlot v p = true → ∀ k : Int, 0 ≤ k → k < 32 → v (p + k) = v' (p + k)
  before : ∀ p, place p → place (p - 32) ∨
    (lookupSlot v (p - 32) = false ∧ lookupSlot v' (p - 32) = false)

section comparison
variable {v v' : View} {place : Int → Prop} {p : Int} (same : SameNames v v' place) (at_ : place p)
include same at_

theorem SameNames.name {x : Nat} (high : x < 20) : dirName v p x = dirName v' p x := by
  rw [dirName, dirName, byteAt, byteAt, same.byte p at_ x (by omega) (by omega)]

theorem SameNames.attr : dirAttr v p = dirAttr v' p := by
  rw [dirAttr, dirAttr, byteAt, byteAt, same.byte p at_ 11 (by omega) (by omega)]

theorem SameNames.flags : dirNTRes v p = dirNTRes v' p := by
  rw [dirNTRes, dirNTRes, byteAt, byteAt, same.byte p at_ 12 (by omega) (by omega)]

theorem SameNames.directory : isDirectory v p = isDirectory v' p := by
  unfold isDirectory
  rw [same.attr at_]

theorem SameNames.live : live v p = live v' p := by
  unfold Fat32.live
  rw [same.attr at_, same.name at_ (by omega)]

theorem SameNames.lookupSlot : lookupSlot v p = lookupSlot v' p := by
  have first := same.name at_ (x := 0) (by omega)
  simp only [dirName, Int.natCast_zero, Int.add_zero] at first
  have attr : ldirAttr v p = ldirAttr v' p := same.attr at_
  unfold Fat32.lookupSlot
  rw [attr, ldirOrd, ldirOrd, first]

theorem SameNames.slotName (slot : Fat32.lookupSlot v p = true) (x : Nat) (high : x < 13) :
    ldirName v p x = ldirName v' p x := by
  have word : ∀ k : Int, 0 ≤ k → k + 1 < 32 → wordAt v (p + k) = wordAt v' (p + k) := by
    intro k low below
    rw [wordAt, wordAt, Int.add_assoc, byteAt, byteAt, byteAt, byteAt,
      same.slot p at_ slot k low (by omega), same.slot p at_ slot (k + 1) (by omega) below]
  unfold ldirName
  simp only [Int.add_assoc]
  split
  · exact word _ (by omega) (by omega)
  · split
    · exact word _ (by omega) (by omega)
    · exact word _ (by omega) (by omega)

theorem SameNames.compareSlot (slot : Fat32.lookupSlot v p = true) (d : Component)
    (left x j : Nat) (within : x + left ≤ 13) :
    compareSlot v p d left x j = compareSlot v' p d left x j := by
  induction left generalizing x j with
  | zero => rfl
  | succ left ih =>
    have char := same.slotName at_ slot x (by omega)
    have rest := fun j => ih (x + 1) j (by omega)
    simp only [Fat32.compareSlot, char, rest]

theorem SameNames.compareBase (d : Component) (left x j : Nat) (within : x + left ≤ 8) :
    compareBase v p d left x j = compareBase v' p d left x j := by
  induction left generalizing x j with
  | zero => rfl
  | succ left ih =>
    have rest := fun j => ih (x + 1) j (by omega)
    have here : compareBaseChar v p d x j = compareBaseChar v' p d x j := by
      unfold compareBaseChar letterAt
      rw [same.name at_ (by omega), same.directory at_, same.flags at_]
    simp only [Fat32.compareBase, here, rest]

theorem SameNames.compareExt (d : Component) (left x j : Nat) (within : x + left ≤ 11) :
    compareExt v p d left x j = compareExt v' p d left x j := by
  induction left generalizing x j with
  | zero => rfl
  | succ left ih =>
    have rest := ih (x + 1) (j + 1) (by omega)
    have here : compareExtChar v p d x j = compareExtChar v' p d x j := by
      unfold compareExtChar letterAt
      rw [same.name at_ (by omega), same.flags at_]
    simp only [Fat32.compareExt, here, rest]

theorem SameNames.compareShort (d : Component) : compareShort v p d = compareShort v' p d := by
  have base := same.compareBase at_ d 8 0 0 (by omega)
  have ext := fun j => same.compareExt at_ d 3 8 j (by omega)
  simp only [Fat32.compareShort, base, ext, same.directory at_]

theorem SameNames.compareLong (d : Component) (fuel j : Nat) :
    compareLong v d fuel (p - 32) j = compareLong v' d fuel (p - 32) j := by
  induction fuel generalizing p j with
  | zero => rfl
  | succ fuel ih =>
    rcases same.before p at_ with earlier | none_
    · have rest := fun j => ih earlier j
      by_cases slot : Fat32.lookupSlot v (p - 32) = true
      · have chars := same.compareSlot earlier slot d 13 0 j (by omega)
        simp only [Fat32.compareLong, ← same.lookupSlot earlier, chars, rest]
      · simp only [Fat32.compareLong, ← same.lookupSlot earlier, slot, Bool.false_eq_true,
          ↓reduceIte]
    · simp only [Fat32.compareLong, none_.1, none_.2, Bool.false_eq_true, ↓reduceIte]

theorem SameNames.compareName (d : Component) : compareName v p d = compareName v' p d := by
  simp only [Fat32.compareName, same.compareLong at_ d, same.compareShort at_ d]

end comparison

end NameMatching

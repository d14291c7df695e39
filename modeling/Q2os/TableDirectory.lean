import Mathlib.Data.List.Induction
import Q2os.TableTree

/- Tables listed by the path of indices that leads to them. Only some entries of a table count, so
   the others may lead anywhere; the entries of the last tables are leaves of any form. -/
namespace TableTree

/- How many levels of tables there are, the first entry of each that counts, and the tag of an entry
   that leads to a table. -/
structure Shape where
  depth : Nat
  first : Nat → Nat
  tag : Nat

/- An entry that leads on is present and has no other bit than the tag below the address. -/
structure Shape.Ok (s : Shape) : Prop where
  odd : s.tag % 2 = 1
  small : s.tag < tableBytes

def Counts (s : Shape) (n i : Nat) : Prop := s.first n ≤ i ∧ i < 512

instance (s : Shape) (n i : Nat) : Decidable (Counts s n i) := inferInstanceAs (Decidable (_ ∧ _))

def Counted (s : Shape) : Nat → List Nat → Prop
  | _, [] => True
  | n, i :: path => Counts s n i ∧ Counted s (n + 1) path

def entryOf (s : Shape) : Option Nat → Nat
  | none => 0
  | some t => t + s.tag

structure Directory (s : Shape) (memory : Words) (root : Nat) (table : List Nat → Option Nat) :
    Prop where
  root : table [] = some root
  aligned : ∀ path t, table path = some t → Aligned t
  unshared : ∀ path path' t, table path = some t → table path' = some t → path = path'
  closed : ∀ path i, table path = none → table (path ++ [i]) = none
  counted : ∀ path t, table path = some t → path.length < s.depth ∧ Counted s 0 path
  entries : ∀ path t i, table path = some t → path.length + 1 < s.depth →
    Counts s path.length i → memory (slot t i) = entryOf s (table (path ++ [i]))

/- The entry of a leaf; without a table it is empty. -/
def leaf (memory : Words) (table : List Nat → Option Nat) (path : List Nat) (i : Nat) : Nat :=
  match table path with
  | none => 0
  | some t => memory (slot t i)

variable {s : Shape} {memory memory' : Words} {root : Nat} {table : List Nat → Option Nat}

theorem counted_append {n : Nat} {path more : List Nat} :
    Counted s n (path ++ more) ↔ Counted s n path ∧ Counted s (n + path.length) more := by
  induction path generalizing n with
  | nil => exact ⟨fun all => ⟨trivial, all⟩, fun both => both.2⟩
  | cons i path ih =>
    have far : n + 1 + path.length = n + (path.length + 1) := by omega
    rw [List.cons_append, Counted, Counted, ih, List.length_cons, far, and_assoc]

/-- A walk along the tables finds what is listed. -/
theorem Directory.walk (ok : s.Ok) (directory : Directory s memory root table) {path : List Nat}
    (short : path.length < s.depth) (counted : Counted s 0 path) :
    TableTree.walk memory path root = table path := by
  induction path using List.reverseRecOn with
  | nil => exact directory.root.symm
  | append_singleton path i ih =>
    rw [List.length_append, List.length_singleton] at short
    obtain ⟨before, last⟩ := counted_append.mp counted
    rw [walk_append, ih (by omega) before]
    cases listed : table path with
    | none => exact (directory.closed path i listed).symm
    | some t =>
      have index : Counts s path.length i := by
        have here := last.1
        rwa [Nat.zero_add] at here
      rw [Option.bind_some, TableTree.walk, directory.entries path t i listed short index]
      cases below : table (path ++ [i]) with
      | none => rfl
      | some u =>
        have aligned := directory.aligned _ u below
        have odd := ok.odd
        have present : ¬ (u + s.tag) % 2 = 0 := by
          unfold Aligned tableBytes at aligned
          omega
        rw [entryOf, if_neg present, TableTree.walk, base_entry aligned ok.small]

/-- A new table changes no leaf. -/
structure Links (s : Shape) (memory memory' : Words) (table : List Nat → Option Nat) (t i u : Nat) :
    Prop where
  entry : memory' (slot t i) = u + s.tag
  empty : ∀ j < 512, memory' (slot u j) = 0
  same : ∀ path v j, table path = some v → j < 512 → slot v j ≠ slot t i →
    memory' (slot v j) = memory (slot v j)

section link
variable {path : List Nat} {t i u : Nat}

theorem Directory.slots (directory : Directory s memory root table) {path' : List Nat} {v j : Nat}
    (listed : table path = some t) (listed' : table path' = some v) (small : i < 512)
    (small' : j < 512) : slot v j = slot t i ↔ path' = path ∧ j = i := by
  constructor
  · intro same
    have table : v = t := by
      by_contra differ
      exact slot_ne (directory.aligned _ _ listed') (directory.aligned _ _ listed) differ small'
        small same
    subst table
    refine ⟨directory.unshared _ _ _ listed' listed, ?_⟩
    unfold slot at same
    omega
  · rintro ⟨rfl, rfl⟩
    cases listed.symm.trans listed'
    rfl

theorem Directory.link (directory : Directory s memory root table) (listed : table path = some t)
    (deep : path.length + 1 < s.depth) (index : Counts s path.length i)
    (absent : table (path ++ [i]) = none) (aligned : Aligned u)
    (fresh : ∀ path, table path ≠ some u) (links : Links s memory memory' table t i u) :
    Directory s memory' root (Function.update table (path ++ [i]) (some u)) := by
  have found : ∀ path' v, Function.update table (path ++ [i]) (some u) path' = some v →
      path' = path ++ [i] ∧ v = u ∨ path' ≠ path ++ [i] ∧ table path' = some v := by
    intro path' v here
    by_cases new : path' = path ++ [i]
    · rw [new, Function.update_self] at here
      cases here
      exact Or.inl ⟨new, rfl⟩
    · rw [Function.update_of_ne new] at here
      exact Or.inr ⟨new, here⟩
  -- nothing is listed below the path of the new table
  have below : ∀ j, table (path ++ [i] ++ [j]) = none := fun j => directory.closed _ j absent
  constructor
  · rw [Function.update_of_ne]
    · exact directory.root
    · simp
  · intro path' v here
    rcases found path' v here with ⟨_, rfl⟩ | ⟨_, old⟩
    · exact aligned
    · exact directory.aligned _ _ old
  · intro path' path'' v here here'
    rcases found path' v here with ⟨rfl, rfl⟩ | ⟨_, old⟩
    · rcases found path'' _ here' with ⟨rfl, _⟩ | ⟨_, old'⟩
      · rfl
      · exact absurd old' (fresh _)
    · rcases found path'' v here' with ⟨_, rfl⟩ | ⟨_, old'⟩
      · exact absurd old (fresh _)
      · exact directory.unshared _ _ _ old old'
  · intro path' j none_
    by_cases new : path' = path ++ [i]
    · rw [new, Function.update_self] at none_
      cases none_
    · rw [Function.update_of_ne new] at none_
      have other : path' ++ [j] ≠ path ++ [i] := by
        intro same
        have front := (List.append_inj' same rfl).1
        rw [front, listed] at none_
        cases none_
      rw [Function.update_of_ne other]
      exact directory.closed _ _ none_
  · intro path' v here
    rcases found path' v here with ⟨rfl, rfl⟩ | ⟨_, old⟩
    · obtain ⟨_, front⟩ := directory.counted _ _ listed
      rw [List.length_append, List.length_singleton]
      exact ⟨deep, counted_append.mpr ⟨front, by rw [Nat.zero_add]; exact index, trivial⟩⟩
    · exact directory.counted _ _ old
  · intro path' v j here deep' index'
    rcases found path' v here with ⟨rfl, rfl⟩ | ⟨_, old⟩
    · rw [links.empty j index'.2, Function.update_of_ne (by simp), below]
      rfl
    · by_cases same : path' ++ [j] = path ++ [i]
      · obtain ⟨front, last⟩ := List.append_inj' same rfl
        cases last
        subst front
        cases listed.symm.trans old
        rw [links.entry, Function.update_self]
        rfl
      · have apart : slot v j ≠ slot t i := by
          intro equal
          obtain ⟨rfl, rfl⟩ := (directory.slots listed old index.2 index'.2).mp equal
          exact same rfl
        rw [links.same _ _ _ old index'.2 apart, Function.update_of_ne same]
        exact directory.entries _ _ _ old deep' index'

theorem Directory.link_leaf (directory : Directory s memory root table)
    (listed : table path = some t) (deep : path.length + 1 < s.depth) (small : i < 512)
    (absent : table (path ++ [i]) = none) (links : Links s memory memory' table t i u)
    {path' : List Nat} {j : Nat} (last : path'.length + 1 = s.depth) (small' : j < 512) :
    leaf memory' (Function.update table (path ++ [i]) (some u)) path' j = leaf memory table path' j := by
  unfold leaf
  by_cases new : path' = path ++ [i]
  · rw [new, Function.update_self, absent]
    exact links.empty j small'
  · rw [Function.update_of_ne new]
    cases old : table path' with
    | none => rfl
    | some v =>
      refine links.same _ _ _ old small' fun equal => ?_
      obtain ⟨rfl, _⟩ := (directory.slots listed old small small').mp equal
      omega

/-- A leaf that is set changes no table and no other leaf. -/
theorem Directory.store (directory : Directory s memory root table) (listed : table path = some t)
    (last : path.length + 1 = s.depth) (small : i < 512) (x : Nat) :
    Directory s (Function.update memory (slot t i) x) root table := by
  refine { directory with entries := fun path' v j old deep index => ?_ }
  rw [Function.update_of_ne]
  · exact directory.entries _ _ _ old deep index
  · intro equal
    obtain ⟨rfl, _⟩ := (directory.slots listed old small index.2).mp equal
    omega

theorem Directory.store_leaf (directory : Directory s memory root table)
    (listed : table path = some t) (small : i < 512) (x : Nat) {path' : List Nat} {j : Nat}
    (small' : j < 512) : leaf (Function.update memory (slot t i) x) table path' j =
      if path' = path ∧ j = i then x else leaf memory table path' j := by
  unfold leaf
  by_cases here : path' = path ∧ j = i
  · obtain ⟨rfl, rfl⟩ := here
    rw [if_pos ⟨rfl, rfl⟩, listed]
    exact Function.update_self ..
  · rw [if_neg here]
    cases old : table path' with
    | none => rfl
    | some v => exact Function.update_of_ne (mt (directory.slots listed old small small').mp here) ..

end link

end TableTree

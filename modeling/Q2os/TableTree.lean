import Mathlib.Logic.Function.Basic

/- Trees of tables in a memory of words: a table is 4096 bytes with 512 words of 8 bytes, an
   entry is 0 or the address of a table of the next level with a tag in its low bits. The
   tables of each level are listed; what is below the last level are leaves. -/
namespace TableTree

abbrev Words := Nat → Nat

def tableBytes : Nat := 4096

def slot (table i : Nat) : Nat := table + 8 * i

def base (entry : Nat) : Nat := entry / tableBytes * tableBytes

/- How many levels of tables there are, how many entries of a table lead on, and their tags. -/
structure Format where
  depth : Nat
  fan : Nat → Nat
  tag : Nat → Nat

/-- Entries fit into a table, and a tag is odd and below the bits of an address. -/
structure Format.Ok (f : Format) : Prop where
  fan : ∀ n < f.depth, f.fan n ≤ 512
  tag : ∀ n < f.depth, f.tag n % 2 = 1 ∧ f.tag n < tableBytes

def Aligned (a : Nat) : Prop := a % tableBytes = 0

def Leads (memory : Words) (a tag : Nat) (below : List Nat) : Prop :=
  memory a = 0 ∨ ∃ u ∈ below, memory a = u + tag

structure Tree (f : Format) (memory : Words) (level : Nat → List Nat) : Prop where
  aligned : ∀ n ≤ f.depth, ∀ t ∈ level n, Aligned t
  separate : ∀ n < f.depth, ∀ k < f.depth, ∀ t, t ∈ level n → t ∈ level k → n = k
  entries : ∀ n < f.depth, ∀ t ∈ level n, ∀ i < f.fan n,
    Leads memory (slot t i) (f.tag n) (level (n + 1))

def walk (memory : Words) : List Nat → Nat → Option Nat
  | [], t => some t
  | i :: path, t =>
    if memory (slot t i) % 2 = 0 then none else walk memory path (base (memory (slot t i)))

def Within (f : Format) : Nat → List Nat → Prop
  | _, [] => True
  | n, i :: path => i < f.fan n ∧ Within f (n + 1) path

def Outside (f : Format) (level : Nat → List Nat) (a : Nat) : Prop :=
  ∀ n < f.depth, ∀ t ∈ level n, a < t ∨ t + tableBytes ≤ a

/-- Two memories with the same tables. -/
def SameTables (f : Format) (level : Nat → List Nat) (memory memory' : Words) : Prop :=
  ∀ n < f.depth, ∀ t ∈ level n, ∀ i < 512, memory' (slot t i) = memory (slot t i)

theorem base_entry {u tag : Nat} (aligned : Aligned u) (small : tag < tableBytes) :
    base (u + tag) = u := by
  unfold Aligned at aligned
  unfold base
  unfold tableBytes at *
  omega

theorem aligned_apart {t u : Nat} (first : Aligned t) (second : Aligned u) (differ : t ≠ u) :
    t + tableBytes ≤ u ∨ u + tableBytes ≤ t := by
  unfold Aligned at first second
  unfold tableBytes at *
  omega

theorem slot_ne {t u i j : Nat} (first : Aligned t) (second : Aligned u) (differ : t ≠ u)
    (small : i < 512) (small' : j < 512) : slot t i ≠ slot u j := by
  have apart := aligned_apart first second differ
  unfold slot
  unfold tableBytes at apart
  omega

variable {f : Format} {memory memory' : Words} {level : Nat → List Nat}

theorem same_of_outside (same : ∀ a, ¬ Outside f level a → memory' a = memory a) :
    SameTables f level memory memory' := by
  intro n deep t listed i small
  apply same
  intro outside
  have apart := outside n deep t listed
  unfold slot tableBytes at apart
  omega

theorem Tree.frame (ok : f.Ok) (tree : Tree f memory level)
    (same : SameTables f level memory memory') : Tree f memory' level := by
  refine ⟨tree.aligned, tree.separate, fun n deep t listed i within => ?_⟩
  have small := ok.fan n deep
  unfold Leads
  rw [same n deep t listed i (by omega)]
  exact tree.entries n deep t listed i within

theorem walk_frame (ok : f.Ok) (tree : Tree f memory level)
    (same : SameTables f level memory memory') {path : List Nat} {n t : Nat}
    (short : n + path.length ≤ f.depth) (within : Within f n path) (listed : t ∈ level n) :
    walk memory' path t = walk memory path t := by
  induction path generalizing n t with
  | nil => rfl
  | cons i path ih =>
    rw [List.length_cons] at short
    have deep : n < f.depth := by omega
    have small := ok.fan n deep
    have small_index := within.1
    rw [walk, walk, same n deep t listed i (by omega)]
    split
    · rfl
    · rename_i present
      rcases tree.entries n deep t listed i within.1 with empty | ⟨u, below, entry⟩
      · rw [empty] at present
        exact absurd rfl present
      · rw [entry, base_entry (tree.aligned (n + 1) deep u below) (ok.tag n deep).2]
        exact ih (by omega) within.2 below

/-- A path leads to a listed address. -/
theorem walk_listed (ok : f.Ok) (tree : Tree f memory level) {path : List Nat} {n t u : Nat}
    (short : n + path.length ≤ f.depth) (within : Within f n path) (listed : t ∈ level n)
    (leads : walk memory path t = some u) : u ∈ level (n + path.length) := by
  induction path generalizing n t with
  | nil =>
    cases leads
    exact listed
  | cons i path ih =>
    rw [List.length_cons] at short ⊢
    have deep : n < f.depth := by omega
    rw [walk] at leads
    split at leads
    · cases leads
    · rename_i present
      rcases tree.entries n deep t listed i within.1 with empty | ⟨v, below, entry⟩
      · rw [empty] at present
        exact absurd rfl present
      · rw [entry, base_entry (tree.aligned (n + 1) deep v below) (ok.tag n deep).2] at leads
        have there := ih (by omega) within.2 below leads
        have same : n + 1 + path.length = n + (path.length + 1) := by omega
        rwa [same] at there

theorem walk_append (memory : Words) (path more : List Nat) (t : Nat) :
    walk memory (path ++ more) t = (walk memory path t).bind (walk memory more) := by
  induction path generalizing t with
  | nil => rfl
  | cons i path ih =>
    rw [List.cons_append, walk, walk]
    split
    · rfl
    · exact ih _

theorem walk_kept {a x : Nat} (empty : memory a = 0) {path : List Nat}
    {t u : Nat} (walked : walk memory path t = some u) :
    walk (Function.update memory a x) path t = some u := by
  induction path generalizing t with
  | nil => exact walked
  | cons i path ih =>
    rw [walk] at walked ⊢
    split at walked
    · cases walked
    · next present =>
      have differ : slot t i ≠ a := fun same => present (by rw [same, empty])
      rw [Function.update_of_ne differ, if_neg present]
      exact ih walked

def grow (level : Nat → List Nat) (n u : Nat) : Nat → List Nat :=
  Function.update level n (u :: level n)

theorem mem_grow {n k u t : Nat} : t ∈ grow level n u k ↔ (k = n ∧ t = u) ∨ t ∈ level k := by
  unfold grow
  by_cases here : k = n
  · subst here
    rw [Function.update_self, List.mem_cons]
    simp
  · rw [Function.update_of_ne here]
    simp [here]

/-- An entry that is set to a new table or leaf. -/
theorem Tree.link (ok : f.Ok) (tree : Tree f memory level) {n t i u : Nat} (deep : n < f.depth)
    (listed : t ∈ level n) (within : i < f.fan n) (aligned : Aligned u)
    (fresh : n + 1 < f.depth → ∀ k < f.depth, u ∉ level k)
    (empty : n + 1 < f.depth → ∀ j < f.fan (n + 1), memory (slot u j) = 0) :
    Tree f (Function.update memory (slot t i) (u + f.tag n)) (grow level (n + 1) u) := by
  have place := tree.aligned n (by omega) t listed
  have small := ok.fan n deep
  refine ⟨?_, ?_, ?_⟩
  · intro k high v member
    rcases mem_grow.mp member with ⟨_, rfl⟩ | old
    · exact aligned
    · exact tree.aligned k high v old
  · intro k low l low' v first second
    rcases mem_grow.mp first with ⟨rfl, rfl⟩ | old
    · rcases mem_grow.mp second with ⟨rfl, _⟩ | old'
      · rfl
      · exact absurd old' (fresh low l low')
    · rcases mem_grow.mp second with ⟨rfl, rfl⟩ | old'
      · exact absurd old (fresh low' k low)
      · exact tree.separate k low l low' v old old'
  · intro k low v member j within'
    have wide := ok.fan k low
    unfold Leads
    by_cases here : slot v j = slot t i
    · have same : v = t := by
        by_contra differ
        have aligned_v : Aligned v := by
          rcases mem_grow.mp member with ⟨_, rfl⟩ | old
          · exact aligned
          · exact tree.aligned k (by omega) v old
        exact slot_ne aligned_v place differ (by omega) (by omega) here
      have level_n : k = n := by
        rcases mem_grow.mp member with ⟨rfl, rfl⟩ | old
        · exact absurd listed (same ▸ fresh low n deep)
        · exact tree.separate k low n deep t (same ▸ old) listed
      subst level_n
      rw [here, Function.update_self]
      exact Or.inr ⟨u, mem_grow.mpr (Or.inl ⟨rfl, rfl⟩), rfl⟩
    · rw [Function.update_of_ne here]
      rcases mem_grow.mp member with ⟨rfl, rfl⟩ | old
      · exact Or.inl (empty low j within')
      · rcases tree.entries k low v old j within' with zero | ⟨w, below, entry⟩
        · exact Or.inl zero
        · exact Or.inr ⟨w, mem_grow.mpr (Or.inr below), entry⟩

end TableTree

import Q2os.FreeClusters
import Q2os.FilePosition

/- The chains of the files of a volume: how they stay apart and ended when a free entry is linked
   behind one of them. -/
namespace ChainGrowth
open BlockProgram Fat32 FreeClusters

variable {ι : Type} {fsbi : SbInfo} {w w' : World}

/-- The chains of the files of a volume, of len i clusters each, in the data area and apart, with
    room for the sizes. -/
structure InOrder (fsbi : SbInfo) (w : World) (files : ι → IndexNode) (len : ι → Nat) : Prop where
  chain : ∀ i, (files i).firstCluster ≠ 0 → Chain fsbi w (files i).firstCluster (len i) ∧ 0 < len i
  bare : ∀ i, (files i).firstCluster = 0 → len i = 0
  inside : ∀ i, ∀ k < len i, InData fsbi (clusterAt fsbi w (files i).firstCluster k)
  apart : ∀ i j, i ≠ j → ∀ k < len i, ∀ l < len j,
    clusterAt fsbi w (files i).firstCluster k ≠ clusterAt fsbi w (files j).firstCluster l
  room : ∀ i, (files i).fileSize ≤ len i * fsbi.bytesPerCluster

/- The table once a is the end of a chain that had come to c, or a new chain where c is a. -/
def Linked (fsbi : SbInfo) (w w' : World) (c a : Nat) : Prop :=
  ∀ d, InTable fsbi d →
    fatEntry fsbi w' d = if d = a then endMark else if d = c then a else fatEntry fsbi w d

section chains
variable {first len : Nat}

theorem clusterAt_congr {n : Nat} (same : ∀ k < n, fatEntry fsbi w' (clusterAt fsbi w first k) =
      fatEntry fsbi w (clusterAt fsbi w first k)) {k : Nat} (within : k ≤ n) :
    clusterAt fsbi w' first k = clusterAt fsbi w first k := by
  induction k with
  | zero => rfl
  | succ k ih =>
    rw [clusterAt_succ, clusterAt_succ, ih (by omega)]
    exact same k (by omega)

theorem chain_used (chain : Chain fsbi w first len) {k : Nat} (less : k < len) :
    fatEntry fsbi w (clusterAt fsbi w first k) ≠ 0 := by
  rw [← clusterAt_succ]
  by_cases next : k + 1 < len
  · have data := (chain.valid _ next).data
    omega
  · have mark := chain.ends
    have last : k + 1 = len := by omega
    rw [last]
    omega

theorem chain_congr (chain : Chain fsbi w first len)
    (same : ∀ k < len, fatEntry fsbi w' (clusterAt fsbi w first k) =
      fatEntry fsbi w (clusterAt fsbi w first k)) :
    Chain fsbi w' first len ∧
      ∀ k ≤ len, clusterAt fsbi w' first k = clusterAt fsbi w first k := by
  have links : ∀ k ≤ len, clusterAt fsbi w' first k = clusterAt fsbi w first k :=
    fun k within => clusterAt_congr same within
  refine ⟨⟨fun k less => ?_, ?_⟩, links⟩
  · rw [links k (by omega)]
    exact chain.valid k less
  · rw [links len (Nat.le_refl len)]
    exact chain.ends

theorem chain_other (chain : Chain fsbi w first len) {c a : Nat} (linked : Linked fsbi w w' c a)
    (free : fatEntry fsbi w a = 0) (other : ∀ k < len, clusterAt fsbi w first k ≠ c) :
    Chain fsbi w' first len ∧
      ∀ k ≤ len, clusterAt fsbi w' first k = clusterAt fsbi w first k := by
  apply chain_congr chain
  intro k less
  have used := chain_used chain less
  have not_new : clusterAt fsbi w first k ≠ a := fun new => used (new ▸ free)
  rw [linked _ (chain.valid k less).in_table, if_neg not_new, if_neg (other k less)]

theorem chain_linked (chain : Chain fsbi w first (len + 1)) {a : Nat} (new : Valid fsbi a)
    (free : fatEntry fsbi w a = 0) (linked : Linked fsbi w w' (clusterAt fsbi w first len) a) :
    Chain fsbi w' first (len + 2) ∧
      (∀ k ≤ len, clusterAt fsbi w' first k = clusterAt fsbi w first k) ∧
      clusterAt fsbi w' first (len + 1) = a := by
  have differ : ∀ k ≤ len, clusterAt fsbi w first k ≠ a := fun k within same =>
    chain_used chain (by omega : k < len + 1) (same ▸ free)
  have links : ∀ k ≤ len, clusterAt fsbi w' first k = clusterAt fsbi w first k := by
    intro k within
    refine clusterAt_congr (n := len) (fun j less => ?_) within
    have before := chain.injective less (by omega)
    rw [linked _ (chain.valid j (by omega)).in_table, if_neg (differ j (by omega)), if_neg before]
  have last : clusterAt fsbi w' first (len + 1) = a := by
    rw [clusterAt_succ, links len (Nat.le_refl len), linked _ (chain.valid len (by omega)).in_table,
      if_neg (differ len (Nat.le_refl len)), if_pos rfl]
  refine ⟨⟨fun k less => ?_, ?_⟩, links, last⟩
  · rcases Nat.lt_or_eq_of_le (by omega : k ≤ len + 1) with old | end_
    · rw [links k (by omega)]
      exact chain.valid k old
    · rw [end_, last]
      exact new
  · rw [clusterAt_succ, last, linked a new.in_table, if_pos rfl]
    exact Nat.le_refl _

theorem chain_length {len' : Nat} (chain : Chain fsbi w first len)
    (other : Chain fsbi w first len') : len = len' := by
  rcases Nat.lt_trichotomy len len' with before | same | behind
  · have link := (other.valid len before).no_mark
    have mark := chain.ends
    omega
  · exact same
  · have link := (chain.valid len' behind).no_mark
    have mark := other.ends
    omega

end chains

section files
variable {files : ι → IndexNode} {len : ι → Nat} (order : InOrder fsbi w files len)
include order

theorem InOrder.used {i : ι} {k : Nat} (less : k < len i) :
    Chain fsbi w (files i).firstCluster (len i) ∧
      fatEntry fsbi w (clusterAt fsbi w (files i).firstCluster k) ≠ 0 := by
  have started : (files i).firstCluster ≠ 0 := by
    intro empty
    have none_ := order.bare i empty
    omega
  have chain := (order.chain i started).1
  exact ⟨chain, chain_used chain less⟩

theorem InOrder.congr (same : ∀ i, ∀ k < len i,
      fatEntry fsbi w' (clusterAt fsbi w (files i).firstCluster k) =
        fatEntry fsbi w (clusterAt fsbi w (files i).firstCluster k)) :
    InOrder fsbi w' files len := by
  have links : ∀ i, ∀ k < len i, clusterAt fsbi w' (files i).firstCluster k =
      clusterAt fsbi w (files i).firstCluster k := fun i k less =>
    clusterAt_congr (same i) (Nat.le_of_lt less)
  refine ⟨fun i started => ?_, order.bare, fun i k less => ?_, fun i j other k less l less' => ?_,
    order.room⟩
  · obtain ⟨chain, some_clusters⟩ := order.chain i started
    exact ⟨(chain_congr chain (same i)).1, some_clusters⟩
  · rw [links i k less]
    exact order.inside i k less
  · rw [links i k less, links j l less']
    exact order.apart i j other k less l less'

theorem InOrder.frame (layout : Layout fsbi) (tables : SameTables fsbi w w') :
    InOrder fsbi w' files len :=
  order.congr fun _ k less =>
    fatEntry_frame layout tables ((order.used less).1.valid k less).in_table

theorem InOrder.grown {files' : ι → IndexNode} {len' : ι → Nat} {i : ι} {a : Nat}
    (free : fatEntry fsbi w a = 0) (data : InData fsbi a)
    (links : ∀ j, ∀ k < len' j,
      (k < len j ∧ clusterAt fsbi w' (files' j).firstCluster k =
        clusterAt fsbi w (files j).firstCluster k) ∨
      (j = i ∧ clusterAt fsbi w' (files' j).firstCluster k = a))
    (chain : ∀ j, (files' j).firstCluster ≠ 0 →
      Chain fsbi w' (files' j).firstCluster (len' j) ∧ 0 < len' j)
    (bare : ∀ j, (files' j).firstCluster = 0 → len' j = 0)
    (room : ∀ j, (files' j).fileSize ≤ len' j * fsbi.bytesPerCluster) :
    InOrder fsbi w' files' len' := by
  have new : ∀ j, ∀ k < len j, clusterAt fsbi w (files j).firstCluster k ≠ a :=
    fun j k less same => (order.used less).2 (same ▸ free)
  refine ⟨chain, bare, fun j k less => ?_, fun j j' other k less l less' => ?_, room⟩
  · rcases links j k less with ⟨old, same⟩ | ⟨_, last⟩
    · rw [same]
      exact order.inside j k old
    · rw [last]
      exact data
  · rcases links j k less with ⟨old, same⟩ | ⟨here, last⟩
    · rcases links j' l less' with ⟨old', same'⟩ | ⟨_, last'⟩
      · rw [same, same']
        exact order.apart j j' other k old l old'
      · rw [same, last']
        exact new j k old
    · rcases links j' l less' with ⟨old', same'⟩ | ⟨here', _⟩
      · rw [last, same']
        exact (new j' l old').symm
      · exact absurd (here.trans here'.symm) other

variable [DecidableEq ι]

/- A free cluster behind the last one of a file. -/
theorem InOrder.extended {i : ι} {n a : Nat} (some_clusters : len i = n + 1) (new : Valid fsbi a)
    (data : InData fsbi a) (free : fatEntry fsbi w a = 0)
    (linked : Linked fsbi w w' (clusterAt fsbi w (files i).firstCluster n) a) :
    InOrder fsbi w' files (Function.update len i (n + 2)) ∧
      clusterAt fsbi w' (files i).firstCluster (n + 1) = a := by
  have started : ∀ j, 0 < len j → (files j).firstCluster ≠ 0 := by
    intro j some_ empty
    have none_ := order.bare j empty
    omega
  have own := (order.chain i (started i (by omega))).1
  rw [some_clusters] at own
  obtain ⟨own, links, last⟩ := chain_linked own new free linked
  have others : ∀ j, j ≠ i → (files j).firstCluster ≠ 0 →
      Chain fsbi w' (files j).firstCluster (len j) ∧
        ∀ k ≤ len j, clusterAt fsbi w' (files j).firstCluster k =
          clusterAt fsbi w (files j).firstCluster k := fun j other begun =>
    chain_other (order.chain j begun).1 linked free fun k less =>
      order.apart j i other k less n (by omega)
  refine ⟨order.grown free data (i := i) (fun j k less => ?_) (fun j begun => ?_)
    (fun j empty => ?_) fun j => ?_, last⟩
  · by_cases here : j = i
    · rw [here, Function.update_self] at less
      rw [here, some_clusters]
      rcases Nat.lt_or_eq_of_le (by omega : k ≤ n + 1) with old | end_
      · exact Or.inl ⟨old, links k (by omega)⟩
      · rw [end_]
        exact Or.inr ⟨rfl, last⟩
    · rw [Function.update_of_ne here] at less
      exact Or.inl ⟨less, (others j here (started j (by omega))).2 k (by omega)⟩
  · by_cases here : j = i
    · rw [here, Function.update_self]
      exact ⟨own, by omega⟩
    · rw [Function.update_of_ne here]
      exact ⟨(others j here begun).1, (order.chain j begun).2⟩
  · have none_ := order.bare j empty
    have here : j ≠ i := fun same => by
      rw [same] at none_
      omega
    rw [Function.update_of_ne here]
    exact none_
  · by_cases here : j = i
    · rw [here, Function.update_self]
      have room := order.room i
      have more : len i * fsbi.bytesPerCluster ≤ (n + 2) * fsbi.bytesPerCluster :=
        Nat.mul_le_mul_right _ (by omega)
      omega
    · rw [Function.update_of_ne here]
      exact order.room j

/- A free cluster as the first one of a file. -/
theorem InOrder.started {i : ι} {a : Nat} (empty : (files i).firstCluster = 0) (new : Valid fsbi a)
    (data : InData fsbi a) (free : fatEntry fsbi w a = 0) (linked : Linked fsbi w w' a a) :
    InOrder fsbi w' (Function.update files i { files i with firstCluster := a })
      (Function.update len i 1) := by
  have others : ∀ j, (files j).firstCluster ≠ 0 →
      Chain fsbi w' (files j).firstCluster (len j) ∧
        ∀ k ≤ len j, clusterAt fsbi w' (files j).firstCluster k =
          clusterAt fsbi w (files j).firstCluster k := fun j begun =>
    chain_other (order.chain j begun).1 linked free fun k less same =>
      chain_used (order.chain j begun).1 less (same ▸ free)
  have size := order.room i
  rw [order.bare i empty, Nat.zero_mul] at size
  refine order.grown free data (i := i) (fun j k less => ?_) (fun j begun => ?_) (fun j none_ => ?_)
    fun j => ?_
  · by_cases here : j = i
    · rw [here, Function.update_self] at less
      rw [here, Function.update_self, Nat.lt_one_iff.mp less]
      exact Or.inr ⟨rfl, rfl⟩
    · rw [Function.update_of_ne here] at less ⊢
      have begun : (files j).firstCluster ≠ 0 := fun other => by
        rw [order.bare j other] at less
        omega
      exact Or.inl ⟨less, (others j begun).2 k (by omega)⟩
  · by_cases here : j = i
    · rw [here, Function.update_self, Function.update_self]
      refine ⟨⟨fun k less => ?_, ?_⟩, by decide⟩
      · rw [Nat.lt_one_iff.mp less]
        exact new
      · rw [clusterAt_succ]
        dsimp only [clusterAt]
        rw [linked a new.in_table, if_pos rfl]
        exact Nat.le_refl _
    · rw [Function.update_of_ne here] at begun
      rw [Function.update_of_ne here, Function.update_of_ne here]
      exact ⟨(others j begun).1, (order.chain j begun).2⟩
  · by_cases here : j = i
    · rw [here, Function.update_self] at none_
      have used := new.data
      dsimp only at none_
      omega
    · rw [Function.update_of_ne here] at none_ ⊢
      exact order.bare j none_
  · by_cases here : j = i
    · rw [here, Function.update_self, Function.update_self]
      dsimp only
      omega
    · rw [Function.update_of_ne here, Function.update_of_ne here]
      exact order.room j

theorem InOrder.sized {i : ι} {size : Nat} (room : size ≤ len i * fsbi.bytesPerCluster) :
    InOrder fsbi w (Function.update files i { files i with fileSize := size }) len := by
  have first : ∀ j, (Function.update files i { files i with fileSize := size } j).firstCluster =
      (files j).firstCluster := by
    intro j
    by_cases here : j = i
    · rw [here, Function.update_self]
    · rw [Function.update_of_ne here]
  refine ⟨fun j begun => ?_, fun j empty => ?_, fun j k less => ?_,
    fun j j' other k less l less' => ?_, fun j => ?_⟩
  · rw [first] at begun ⊢
    exact order.chain j begun
  · rw [first] at empty
    exact order.bare j empty
  · rw [first]
    exact order.inside j k less
  · rw [first, first]
    exact order.apart j j' other k less l less'
  · by_cases here : j = i
    · rw [here, Function.update_self]
      exact room
    · rw [Function.update_of_ne here]
      exact order.room j

end files

end ChainGrowth

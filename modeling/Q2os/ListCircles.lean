import Q2os.KernelList

/- The list primitives on a ring in which no node is the head. -/
namespace KernelList
open CircularList

variable {α : Type}

/-- The nodes of a ring in the order of next, from any of them on. -/
def Circle (l : Links α) : List α → Prop
  | [] => False
  | a :: xs => Ring l a xs

section turning
variable {l : Links α} {a b : α} {xs ys : List α}

theorem linked_append {next : α → α} (a b c : α) (xs ys : List α) :
    Linked next a (xs ++ b :: ys) c ↔ Linked next a xs b ∧ Linked next b ys c := by
  induction xs generalizing a with
  | nil => exact Iff.rfl
  | cons x xs ih =>
    show next a = x ∧ Linked next x (xs ++ b :: ys) c ↔ (next a = x ∧ Linked next x xs b) ∧ _
    rw [ih, and_assoc]

/- Another node of the ring taken for its head. -/
theorem ring_turn (ring : Ring l a (xs ++ b :: ys)) : Ring l b (ys ++ a :: xs) := by
  obtain ⟨to_b, to_a⟩ := (linked_append a b a xs ys).mp ring.forward
  have back := ring.backward
  rw [List.reverse_append, List.reverse_cons, List.append_assoc, List.singleton_append] at back
  obtain ⟨back_b, back_a⟩ := (linked_append a b a ys.reverse xs.reverse).mp back
  refine ⟨(linked_append b a b ys xs).mpr ⟨to_a, to_b⟩, ?_, ?_⟩
  · rw [List.reverse_append, List.reverse_cons, List.append_assoc, List.singleton_append]
    exact (linked_append b a b xs.reverse ys.reverse).mpr ⟨back_a, back_b⟩
  · have spread : (b :: (ys ++ a :: xs)).Perm (a :: (xs ++ b :: ys)) :=
      @List.perm_append_comm _ (b :: ys) (a :: xs)
    exact spread.nodup_iff.mpr ring.nodup

theorem circle_turn (circle : Circle l (xs ++ ys)) : Circle l (ys ++ xs) := by
  cases xs with
  | nil => rwa [List.append_nil]
  | cons a xs =>
    cases ys with
    | nil => rwa [List.append_nil] at circle
    | cons b ys => exact ring_turn circle

theorem circle_ring (circle : Circle l (xs ++ a :: ys)) : Ring l a (ys ++ xs) :=
  circle_turn circle

theorem circle_next (circle : Circle l xs) (member : a ∈ xs) : l.next a ∈ xs := by
  cases xs with
  | nil => cases member
  | cons x xs => exact cycle_next_mem (ring_cycle circle) member

theorem circle_prev (circle : Circle l xs) (member : a ∈ xs) : l.prev a ∈ xs := by
  cases xs with
  | nil => cases member
  | cons x xs =>
    have spread : (x :: xs.reverse).Perm (x :: xs) := List.Perm.cons x (List.reverse_perm xs)
    have cycle : Cycle l.prev x xs.reverse := ⟨circle.backward, spread.nodup_iff.mpr circle.nodup⟩
    exact spread.mem_iff.mp (cycle_next_mem cycle (spread.mem_iff.mpr member))

end turning

def Kept (l l' : Links α) (a : α) : Prop := l'.next a = l.next a ∧ l'.prev a = l.prev a

section primitives
variable [DecidableEq α] {l : Links α} {e n a : α} {pre post : List α}

theorem list_add_to_behind_circle (circle : Circle l (pre ++ e :: post)) (fresh : n ∉ pre ++ e :: post) :
    Circle (listAddToBehind l e n) (pre ++ e :: n :: post) := by
  have ring := list_add_to_head_ring (circle_ring circle)
    (fun member => fresh (List.perm_append_comm.mem_iff.mp member))
  exact @circle_turn _ _ (e :: n :: post) pre ring

theorem list_add_to_before_circle (circle : Circle l (pre ++ e :: post)) (fresh : n ∉ pre ++ e :: post) :
    Circle (listAddToBefore l e n) (pre ++ n :: e :: post) := by
  have ring := @list_add_to_before_ring _ _ l e n (post ++ pre) [] (by
    rw [List.append_nil]
    exact circle_ring circle) (by
    rw [List.append_nil]
    exact fun member => fresh (List.perm_append_comm.mem_iff.mp member))
  rw [List.append_assoc] at ring
  have turned := @circle_turn _ (listAddToBefore l e n) (e :: post) (pre ++ [n]) ring
  rwa [List.append_assoc] at turned

theorem list_del_circle (circle : Circle l (pre ++ e :: post)) (more : pre ++ post ≠ []) :
    Circle (listDel l e) (pre ++ post) := by
  apply circle_turn
  have first : Circle l (e :: (post ++ pre)) := circle_ring circle
  have turned : Circle l ((post ++ pre) ++ [e]) := @circle_turn _ _ [e] (post ++ pre) first
  cases split : post ++ pre with
  | nil =>
    rw [List.append_eq_nil_iff] at split
    exact absurd (List.append_eq_nil_iff.mpr split.symm) more
  | cons x xs =>
    rw [split] at turned
    have ring := @list_del_ring _ _ l x e xs [] turned
    rwa [List.append_nil] at ring

theorem list_add_to_behind_kept (circle : Circle l (pre ++ e :: post)) (fresh : n ∉ pre ++ e :: post)
    (other : a ∉ pre ++ e :: post) (away : a ≠ n) : Kept l (listAddToBehind l e n) a := by
  have member : e ∈ pre ++ e :: post := List.mem_append_right pre List.mem_cons_self
  have not_e : a ≠ e := fun same => other (same ▸ member)
  have not_n : e ≠ n := fun same => fresh (same ▸ member)
  have not_next : a ≠ l.next e := fun same => other (same ▸ circle_next circle member)
  simp [Kept, listAddToBehind, setNext, setPrev, Function.update_of_ne, not_e, not_next, away]

theorem list_add_to_before_kept (circle : Circle l (pre ++ e :: post))
    (other : a ∉ pre ++ e :: post) (away : a ≠ n) : Kept l (listAddToBefore l e n) a := by
  have member : e ∈ pre ++ e :: post := List.mem_append_right pre List.mem_cons_self
  have not_e : a ≠ e := fun same => other (same ▸ member)
  have not_prev : a ≠ l.prev e := fun same => other (same ▸ circle_prev circle member)
  simp [Kept, listAddToBefore, setNext, setPrev, Function.update_of_ne, not_e, not_prev, away]

theorem list_del_kept (circle : Circle l (pre ++ e :: post)) (other : a ∉ pre ++ e :: post) :
    Kept l (listDel l e) a := by
  have member : e ∈ pre ++ e :: post := List.mem_append_right pre List.mem_cons_self
  have not_next : a ≠ l.next e := fun same => other (same ▸ circle_next circle member)
  have not_prev : a ≠ l.prev e := fun same => other (same ▸ circle_prev circle member)
  -- The second store goes through e, which the first one leaves alone even as its own neighbour.
  have same : Function.update l.prev (l.next e) (l.prev e) e = l.prev e := by
    by_cases loop : e = l.next e
    · rw [← loop, Function.update_self]
    · rw [Function.update_of_ne loop]
  refine ⟨?_, Function.update_of_ne not_next _ _⟩
  show Function.update l.next (Function.update l.prev (l.next e) (l.prev e) e) (l.next e) a = l.next a
  rw [same, Function.update_of_ne not_prev]

theorem list_is_empty_circle (circle : Circle l (pre ++ e :: post)) :
    listIsEmpty l e = true ↔ pre ++ e :: post = [e] := by
  rw [list_is_empty_iff (circle_ring circle)]
  constructor
  · intro none_
    obtain ⟨rfl, rfl⟩ := List.append_eq_nil_iff.mp none_
    rfl
  · intro one
    have length := congrArg List.length one
    rw [List.length_append, List.length_cons, List.length_singleton] at length
    exact List.length_eq_zero_iff.mp (by rw [List.length_append]; omega)

end primitives

/-- The primitives on a ring of any length, as operations on the sequence of its nodes. -/
theorem list_primitives_circle [DecidableEq α] {l : Links α} {e : α} {pre post : List α}
    (circle : Circle l (pre ++ e :: post)) :
    (∀ n ∉ pre ++ e :: post,
      Circle (listAddToBehind l e n) (pre ++ e :: n :: post) ∧
      Circle (listAddToBefore l e n) (pre ++ n :: e :: post) ∧
      ∀ a ∉ pre ++ e :: post, a ≠ n →
        Kept l (listAddToBehind l e n) a ∧ Kept l (listAddToBefore l e n) a) ∧
    (pre ++ post ≠ [] → Circle (listDel l e) (pre ++ post) ∧
      ∀ a ∉ pre ++ e :: post, Kept l (listDel l e) a) ∧
    (listIsEmpty l e = true ↔ pre ++ e :: post = [e]) := by
  refine ⟨fun n fresh => ⟨list_add_to_behind_circle circle fresh, list_add_to_before_circle circle fresh,
    fun a other away => ⟨list_add_to_behind_kept circle fresh other away,
      list_add_to_before_kept circle other away⟩⟩,
    fun more => ⟨list_del_circle circle more, fun a other => list_del_kept circle other⟩,
    list_is_empty_circle circle⟩

/- Two rings: 0 and 1, and 2 alone. -/
def twoRings : Links Nat where
  prev a := if a = 0 then 1 else if a = 1 then 0 else a
  next a := if a = 0 then 1 else if a = 1 then 0 else a

theorem twoRings_circle : Circle twoRings ([0] ++ 1 :: []) := ⟨⟨rfl, rfl⟩, ⟨rfl, rfl⟩, by decide⟩

theorem list_primitives_twoRings :
    (∀ n ∉ [0] ++ 1 :: [],
      Circle (listAddToBehind twoRings 1 n) ([0] ++ 1 :: n :: []) ∧
      Circle (listAddToBefore twoRings 1 n) ([0] ++ n :: 1 :: []) ∧
      ∀ a ∉ [0] ++ 1 :: [], a ≠ n →
        Kept twoRings (listAddToBehind twoRings 1 n) a ∧ Kept twoRings (listAddToBefore twoRings 1 n) a) ∧
    ([0] ++ [] ≠ [] → Circle (listDel twoRings 1) ([0] ++ []) ∧
      ∀ a ∉ [0] ++ 1 :: [], Kept twoRings (listDel twoRings 1) a) ∧
    (listIsEmpty twoRings 1 = true ↔ [0] ++ 1 :: [] = [1]) :=
  list_primitives_circle twoRings_circle

/- A node that is added out of a ring of its own is a node of another ring, and is stored to. -/
theorem list_add_touches_other :
    Circle twoRings [0, 1] ∧ Circle twoRings [2] ∧ 2 ∉ [0, 1] ∧
      ¬ Kept twoRings (listAddToBehind twoRings 1 2) 2 := by
  refine ⟨twoRings_circle, ⟨rfl, rfl, by decide⟩, by decide, fun kept => ?_⟩
  exact absurd kept.1 (by decide)

end KernelList

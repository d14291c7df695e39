import Q2os.CircularList

/- The struct List operations of lib.h on two pointer fields, and what they do to a ring:
   a sequence around a head node gains or loses one node in place. -/
namespace KernelList
open CircularList

variable {α : Type}

/- The pointers around a gap of a ring. -/
theorem ring_next {l : Links α} {head : α} {pre post : List α}
    (ring : Ring l head (pre ++ post)) : l.next (lastNode head pre) = firstNode post head :=
  linked_at ring.forward

theorem ring_prev {l : Links α} {head : α} {pre post : List α}
    (ring : Ring l head (pre ++ post)) : l.prev (firstNode post head) = lastNode head pre := by
  have back := ring.backward
  rw [List.reverse_append] at back
  have at_gap := linked_at back
  rwa [lastNode_reverse, firstNode_reverse] at at_gap

variable [DecidableEq α]

def setNext (l : Links α) (a v : α) : Links α := { l with next := Function.update l.next a v }
def setPrev (l : Links α) (a v : α) : Links α := { l with prev := Function.update l.prev a v }

def listInit (l : Links α) (list : α) : Links α := setNext (setPrev l list list) list list

def listAddToBehind (l : Links α) (entry new : α) : Links α :=
  let l := setNext l new (l.next entry)
  let l := setPrev l new entry
  let l := setPrev l (l.next new) new
  setNext l entry new

def listAddToBefore (l : Links α) (entry new : α) : Links α :=
  let l := setNext l new entry
  let l := setNext l (l.prev entry) new
  let l := setPrev l new (l.prev entry)
  setPrev l entry new

def listDel (l : Links α) (entry : α) : Links α :=
  let l := setPrev l (l.next entry) (l.prev entry)
  setNext l (l.prev entry) (l.next entry)

def listIsEmpty (l : Links α) (entry : α) : Bool :=
  entry = l.next entry ∧ l.prev entry = entry

theorem list_init_ring (l : Links α) (list : α) : Ring (listInit l list) list [] :=
  ⟨by simp [listInit, setNext, setPrev, Linked], by simp [listInit, setNext, setPrev, Linked],
    by simp⟩

theorem list_is_empty_iff {l : Links α} {head : α} {xs : List α} (ring : Ring l head xs) :
    listIsEmpty l head = true ↔ xs = [] := by
  constructor
  · intro empty
    simp only [listIsEmpty, decide_eq_true_eq] at empty
    cases xs with
    | nil => rfl
    | cons x xs =>
      have first : head = x := empty.1.trans ring.forward.1
      exact absurd first (fun same => (List.nodup_cons.mp ring.nodup).1 (by simp [same]))
  · rintro rfl
    simp only [listIsEmpty, decide_eq_true_eq]
    exact ⟨(show l.next head = head from ring.forward).symm, ring.backward⟩

/- Both insertions store the same four pointers once the ring is known. -/
theorem splice_ring {l : Links α} {head n : α} {pre post : List α}
    (ring : Ring l head (pre ++ post)) (fresh : n ∉ head :: (pre ++ post)) :
    Ring
      ⟨Function.update (Function.update l.prev n (lastNode head pre)) (firstNode post head) n,
        Function.update (Function.update l.next n (firstNode post head)) (lastNode head pre) n⟩
      head (pre ++ n :: post) := by
  refine ⟨linked_insert ring.forward ring.nodup fresh, ?_, nodup_insert ring.nodup fresh⟩
  have back := ring.backward
  rw [List.reverse_append] at back
  have spread : (head :: (post.reverse ++ pre.reverse)).Perm (head :: (pre ++ post)) := by
    rw [← List.reverse_append]
    exact List.Perm.cons head (List.reverse_perm _)
  have spliced := linked_insert back (spread.nodup_iff.mpr ring.nodup)
    (fun member => fresh (spread.mem_iff.mp member))
  rw [lastNode_reverse, firstNode_reverse] at spliced
  simpa using spliced

theorem list_add_to_behind_ring {l : Links α} {head n : α} {pre post : List α}
    (ring : Ring l head (pre ++ post)) (fresh : n ∉ head :: (pre ++ post)) :
    Ring (listAddToBehind l (lastNode head pre) n) head (pre ++ n :: post) := by
  have spliced := splice_ring ring fresh
  simpa [listAddToBehind, setNext, setPrev, ring_next ring] using spliced

theorem list_add_to_before_ring {l : Links α} {head n : α} {pre post : List α}
    (ring : Ring l head (pre ++ post)) (fresh : n ∉ head :: (pre ++ post)) :
    Ring (listAddToBefore l (firstNode post head) n) head (pre ++ n :: post) := by
  have spliced := splice_ring ring fresh
  simpa [listAddToBefore, setNext, setPrev, ring_prev ring] using spliced

theorem list_del_ring {l : Links α} {head n : α} {pre post : List α}
    (ring : Ring l head (pre ++ n :: post)) : Ring (listDel l n) head (pre ++ post) := by
  have after : l.next n = firstNode post head := by
    have parts : Ring l head ((pre ++ [n]) ++ post) := by simpa using ring
    simpa [lastNode_append] using ring_next parts
  have before : l.prev n = lastNode head pre := by simpa [firstNode] using ring_prev ring
  have back := ring.backward
  rw [List.reverse_append, List.reverse_cons, List.append_assoc, List.singleton_append] at back
  have spread : (head :: (post.reverse ++ n :: pre.reverse)).Perm
      (head :: (pre ++ n :: post)) := by
    have same : post.reverse ++ n :: pre.reverse = (pre ++ n :: post).reverse := by simp
    rw [same]
    exact List.Perm.cons head (List.reverse_perm _)
  have cut := linked_remove back (spread.nodup_iff.mpr ring.nodup)
  rw [lastNode_reverse, firstNode_reverse] at cut
  have elsewhere : n ≠ firstNode post head := by
    intro same
    have member := lastNode_mem head post.reverse
    rw [lastNode_reverse, ← same] at member
    rcases List.mem_cons.mp member with at_head | inside
    · exact (List.nodup_cons.mp ring.nodup).1 (by simp [← at_head])
    · have split := (List.nodup_append.mp (List.nodup_cons.mp ring.nodup).2).2.1
      exact (List.nodup_cons.mp split).1 (List.mem_reverse.mp inside)
  have joined := linked_remove ring.forward ring.nodup
  refine ⟨?_, ?_, (nodup_remove ring.nodup).2⟩
  · simpa [listDel, setNext, setPrev, after, before, Function.update_of_ne elsewhere] using joined
  · simpa [listDel, setNext, setPrev, after, before] using cut

/- The same at the head: the most recent node comes first, and the first one goes. -/

theorem list_add_to_head_ring {l : Links α} {head n : α} {xs : List α} (ring : Ring l head xs)
    (fresh : n ∉ head :: xs) : Ring (listAddToBehind l head n) head (n :: xs) :=
  @list_add_to_behind_ring _ _ _ _ _ [] _ ring fresh

theorem list_del_head_ring {l : Links α} {head n : α} {xs : List α}
    (ring : Ring l head (n :: xs)) : Ring (listDel l n) head xs :=
  @list_del_ring _ _ _ _ _ [] _ ring

end KernelList

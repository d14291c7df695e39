import Mathlib.Logic.Function.Basic
import Mathlib.Data.List.Nodup
import Mathlib.Data.List.TakeWhile

/- Linked nodes over any type of addresses. A pointer field is a function from nodes to
   nodes; a store through a pointer is a function update. A path runs from a node through
   a list of nodes to an end; a ring is a path from a head back to itself. -/
namespace CircularList

variable {α : Type} {next : α → α}

def Linked (next : α → α) : α → List α → α → Prop
  | a, [], b => next a = b
  | a, x :: xs, b => next a = x ∧ Linked next x xs b

/- The last node of a path and the first one, when the nodes between may be none. -/
def lastNode : α → List α → α
  | a, [] => a
  | _, x :: xs => lastNode x xs

def firstNode : List α → α → α
  | [], b => b
  | x :: _, _ => x

/-- A ring through next alone: its nodes besides the head, in the order they are met. -/
structure Cycle (next : α → α) (head : α) (xs : List α) : Prop where
  linked : Linked next head xs head
  nodup : (head :: xs).Nodup

structure Links (α : Type) where
  prev : α → α
  next : α → α

/-- A ring linked both ways. -/
structure Ring (l : Links α) (head : α) (xs : List α) : Prop where
  forward : Linked l.next head xs head
  backward : Linked l.prev head xs.reverse head
  nodup : (head :: xs).Nodup

theorem linked_head {a b : α} {xs : List α} (path : Linked next a xs b) :
    next a = firstNode xs b := by
  cases xs with
  | nil => exact path
  | cons x xs => exact path.1

theorem linked_at {a b : α} {pre post : List α} (path : Linked next a (pre ++ post) b) :
    next (lastNode a pre) = firstNode post b := by
  induction pre generalizing a with
  | nil => exact linked_head path
  | cons x pre ih => exact ih path.2

theorem linked_congr {other : α → α} {a b : α} {xs : List α}
    (same : ∀ x ∈ a :: xs, other x = next x) (path : Linked next a xs b) :
    Linked other a xs b := by
  induction xs generalizing a with
  | nil => exact (same a (by simp)).trans path
  | cons x xs ih =>
    exact ⟨(same a (by simp)).trans path.1,
      ih (fun y member => same y (List.mem_cons_of_mem a member)) path.2⟩

/- while(p(a)) a = next of a; none when the fuel is spent first. -/
def walkWhile (next : α → α) (p : α → Bool) : Nat → α → Option α
  | 0, _ => none
  | fuel + 1, a => if p a then walkWhile next p fuel (next a) else some a

theorem walk_while_eq {p : α → Bool} {a b : α} {pre post : List α}
    (path : Linked next a (pre ++ post) b) (pass : ∀ x ∈ pre, p x = true)
    (stop : p (firstNode post b) = false) (fuel : Nat) :
    walkWhile next p fuel (next a) =
      if pre.length < fuel then some (firstNode post b) else none := by
  induction pre generalizing a fuel with
  | nil =>
    have reached : next a = firstNode post b := linked_head path
    cases fuel with
    | zero => rfl
    | succ fuel => simp [walkWhile, reached, stop]
  | cons x pre ih =>
    cases fuel with
    | zero => rfl
    | succ fuel =>
      have first := pass x List.mem_cons_self
      have rest := ih path.2 (fun y member => pass y (List.mem_cons_of_mem x member)) fuel
      have at_x : next a = x := path.1
      simp only [walkWhile, at_x, first, ↓reduceIte, rest, List.length_cons,
        Nat.add_lt_add_iff_right]

theorem walk_while_ring {p : α → Bool} {a b : α} {xs : List α} (path : Linked next a xs b)
    (stop : p b = false) (fuel : Nat) :
    walkWhile next p fuel (next a) =
      if (xs.takeWhile p).length < fuel then some (firstNode (xs.dropWhile p) b)
      else none := by
  have parts : Linked next a (xs.takeWhile p ++ xs.dropWhile p) b := by
    rwa [List.takeWhile_append_dropWhile]
  have halt : p (firstNode (xs.dropWhile p) b) = false := by
    cases late : xs.dropWhile p with
    | nil => exact stop
    | cons x post =>
      have head := List.head?_dropWhile_not p xs
      rw [late] at head
      simpa [firstNode] using head
  exact walk_while_eq parts (fun x member => List.mem_takeWhile_imp member) halt fuel

theorem linked_unique {a b : α} {xs ys : List α} (first : Linked next a xs b)
    (second : Linked next a ys b) (hx : b ∉ xs) (hy : b ∉ ys) : xs = ys := by
  induction xs generalizing a ys with
  | nil =>
    cases ys with
    | nil => rfl
    | cons y ys =>
      have same : y = b := second.1.symm.trans first
      exact absurd (same ▸ List.mem_cons_self) hy
  | cons x xs ih =>
    cases ys with
    | nil =>
      have same : x = b := first.1.symm.trans second
      exact absurd (same ▸ List.mem_cons_self) hx
    | cons y ys =>
      have same : x = y := first.1.symm.trans second.1
      subst same
      rw [ih first.2 second.2 (fun h => hx (List.mem_cons_of_mem _ h))
        (fun h => hy (List.mem_cons_of_mem _ h))]

theorem cycle_unique {head : α} {xs ys : List α} (first : Cycle next head xs)
    (second : Cycle next head ys) : xs = ys :=
  linked_unique first.linked second.linked (List.nodup_cons.mp first.nodup).1
    (List.nodup_cons.mp second.nodup).1

theorem linked_map {a b : α} {xs : List α} (path : Linked next a xs b) :
    (a :: xs).map next = xs ++ [b] := by
  induction xs generalizing a with
  | nil => simpa [Linked] using path
  | cons x xs ih =>
    rw [List.map_cons, ih path.2, path.1]
    rfl

/- On a ring next permutes the nodes. -/
theorem cycle_map_perm {head : α} {xs : List α} (cycle : Cycle next head xs) :
    ((head :: xs).map next).Perm (head :: xs) := by
  rw [linked_map cycle.linked]
  exact List.perm_append_comm

theorem cycle_injective {head a b : α} {xs : List α} (cycle : Cycle next head xs)
    (ha : a ∈ head :: xs) (hb : b ∈ head :: xs) (same : next a = next b) : a = b :=
  List.inj_on_of_nodup_map ((cycle_map_perm cycle).nodup_iff.mpr cycle.nodup) ha hb same

theorem cycle_next_mem {head a : α} {xs : List α} (cycle : Cycle next head xs)
    (member : a ∈ head :: xs) : next a ∈ head :: xs :=
  (cycle_map_perm cycle).mem_iff.mp (List.mem_map_of_mem member)

theorem cycle_previous {head a : α} {xs : List α} (cycle : Cycle next head xs)
    (member : a ∈ head :: xs) : ∃ u ∈ head :: xs, next u = a :=
  List.mem_map.mp ((cycle_map_perm cycle).mem_iff.mpr member)

theorem cycle_congr {other : α → α} {head : α} {xs : List α}
    (same : ∀ x ∈ head :: xs, other x = next x) (cycle : Cycle next head xs) :
    Cycle other head xs :=
  ⟨linked_congr same cycle.linked, cycle.nodup⟩

theorem ring_cycle {l : Links α} {head : α} {xs : List α} (ring : Ring l head xs) :
    Cycle l.next head xs :=
  ⟨ring.forward, ring.nodup⟩

theorem ring_unique {l : Links α} {head : α} {xs ys : List α} (first : Ring l head xs)
    (second : Ring l head ys) : xs = ys :=
  cycle_unique (ring_cycle first) (ring_cycle second)

theorem lastNode_mem (a : α) (pre : List α) : lastNode a pre ∈ a :: pre := by
  induction pre generalizing a with
  | nil => simp [lastNode]
  | cons x pre ih => exact List.mem_cons_of_mem a (ih x)

theorem lastNode_append (a x : α) (pre : List α) : lastNode a (pre ++ [x]) = x := by
  induction pre generalizing a with
  | nil => rfl
  | cons y pre ih => exact ih y

theorem lastNode_reverse (a : α) (post : List α) :
    lastNode a post.reverse = firstNode post a := by
  cases post with
  | nil => rfl
  | cons x post => rw [List.reverse_cons, lastNode_append, firstNode]

theorem firstNode_reverse (pre : List α) (a : α) :
    firstNode pre.reverse a = lastNode a pre := by
  rw [← lastNode_reverse, List.reverse_reverse]

theorem linked_from {a b n : α} {mid post : List α} (path : Linked next a (mid ++ n :: post) b) :
    Linked next n post b := by
  induction mid generalizing a with
  | nil => exact path.2
  | cons x mid ih => exact ih path.2

theorem cycle_no_loop {head a : α} {xs : List α} (cycle : Cycle next head xs) (member : a ∈ xs) :
    next a ≠ a := by
  intro points
  obtain ⟨pre, post, rfl⟩ := List.append_of_mem member
  have parts : Linked next head ((pre ++ [a]) ++ post) head := by simpa using cycle.linked
  have after := linked_at parts
  rw [lastNode_append, points] at after
  cases post with
  | nil => exact (List.nodup_cons.mp cycle.nodup).1 (after ▸ member)
  | cons y post =>
    have same : a = y := after
    have nodup := (List.nodup_append.mp (List.nodup_cons.mp cycle.nodup).2).2.1
    exact (List.nodup_cons.mp nodup).1 (same ▸ List.mem_cons_self)

theorem nodup_insert {a n : α} {pre post : List α} (nodup : (a :: (pre ++ post)).Nodup)
    (fresh : n ∉ a :: (pre ++ post)) : (a :: (pre ++ n :: post)).Nodup := by
  have spread : (a :: (pre ++ n :: post)).Perm (n :: a :: (pre ++ post)) :=
    (List.Perm.cons a List.perm_middle).trans (List.Perm.swap n a _)
  exact spread.nodup_iff.mpr (List.nodup_cons.mpr ⟨fresh, nodup⟩)

theorem nodup_remove {a n : α} {pre post : List α} (nodup : (a :: (pre ++ n :: post)).Nodup) :
    n ∉ a :: (pre ++ post) ∧ (a :: (pre ++ post)).Nodup := by
  have spread : (a :: (pre ++ n :: post)).Perm (n :: a :: (pre ++ post)) :=
    (List.Perm.cons a List.perm_middle).trans (List.Perm.swap n a _)
  exact List.nodup_cons.mp (spread.nodup_iff.mp nodup)

variable [DecidableEq α]

theorem linked_insert {a b n : α} {pre post : List α}
    (path : Linked next a (pre ++ post) b) (nodup : (a :: (pre ++ post)).Nodup)
    (fresh : n ∉ a :: (pre ++ post)) :
    Linked (Function.update (Function.update next n (firstNode post b)) (lastNode a pre) n)
      a (pre ++ n :: post) b := by
  induction pre generalizing a with
  | nil =>
    have rest : ∀ x ∈ post, x ≠ a ∧ x ≠ n := by
      intro x member
      refine ⟨?_, ?_⟩
      · rintro rfl; exact (List.nodup_cons.mp nodup).1 member
      · rintro rfl; exact fresh (List.mem_cons_of_mem a member)
    have apart : n ≠ a := fun same => fresh (same ▸ List.mem_cons_self)
    refine ⟨Function.update_self .., ?_⟩
    cases post with
    | nil => simp [Linked, lastNode, firstNode, apart]
    | cons y post =>
      refine ⟨by simp [lastNode, firstNode, apart], linked_congr ?_ path.2⟩
      intro x member
      have other := rest x member
      simp [lastNode, other.1, other.2]
  | cons x pre ih =>
    have inner := ih path.2 (List.nodup_cons.mp nodup).2
      (fun member => fresh (List.mem_cons_of_mem a member))
    have elsewhere : a ≠ lastNode x pre := by
      intro same
      apply (List.nodup_cons.mp nodup).1
      rw [same]
      exact List.mem_append_left post (lastNode_mem x pre)
    have apart : a ≠ n := fun same => fresh (same ▸ List.mem_cons_self)
    refine ⟨?_, inner⟩
    simpa [lastNode, Function.update_of_ne elsewhere, Function.update_of_ne apart] using path.1

/- Pointing the last node of pre past n cuts out n and what lies before it. -/
theorem linked_cut {a b n : α} {pre mid post : List α}
    (path : Linked next a (pre ++ (mid ++ n :: post)) b)
    (nodup : (a :: (pre ++ (mid ++ n :: post))).Nodup) :
    Linked (Function.update next (lastNode a pre) (firstNode post b)) a (pre ++ post) b := by
  induction pre generalizing a with
  | nil =>
    have rest : ∀ x ∈ post, x ≠ a := by
      rintro x member rfl
      exact (List.nodup_cons.mp nodup).1 (List.mem_append_right mid (List.mem_cons_of_mem n member))
    cases post with
    | nil => exact Function.update_self ..
    | cons y post =>
      refine ⟨Function.update_self .., linked_congr ?_ (linked_from path).2⟩
      intro x member
      exact Function.update_of_ne (rest x member) _ _
  | cons x pre ih =>
    have inner := ih path.2 (List.nodup_cons.mp nodup).2
    have elsewhere : a ≠ lastNode x pre := by
      intro same
      apply (List.nodup_cons.mp nodup).1
      rw [same]
      exact List.mem_append_left (mid ++ n :: post) (lastNode_mem x pre)
    refine ⟨?_, inner⟩
    simpa [lastNode, Function.update_of_ne elsewhere] using path.1

theorem linked_remove {a b n : α} {pre post : List α}
    (path : Linked next a (pre ++ n :: post) b) (nodup : (a :: (pre ++ n :: post)).Nodup) :
    Linked (Function.update next (lastNode a pre) (firstNode post b)) a (pre ++ post) b :=
  @linked_cut _ _ _ _ _ n pre [] post path nodup

theorem cycle_cut {head n : α} {pre mid post : List α}
    (cycle : Cycle next head (pre ++ (mid ++ n :: post))) :
    Cycle (Function.update next (lastNode head pre) (next n)) head (pre ++ post) := by
  have path : Linked next head ((pre ++ mid) ++ n :: post) head := by simpa using cycle.linked
  have shorter : (pre ++ post).Sublist (pre ++ (mid ++ n :: post)) :=
    (List.Sublist.refl pre).append
      ((List.sublist_cons_self n post).trans (List.sublist_append_right mid (n :: post)))
  refine ⟨?_, cycle.nodup.sublist (shorter.cons_cons head)⟩
  rw [linked_head (linked_from path)]
  exact linked_cut cycle.linked cycle.nodup

theorem cycle_push {head n : α} {xs : List α} (cycle : Cycle next head xs)
    (fresh : n ∉ head :: xs) :
    Cycle (Function.update (Function.update next n (next head)) head n) head (n :: xs) := by
  rw [linked_head cycle.linked]
  exact ⟨@linked_insert _ _ _ _ _ _ [] _ cycle.linked cycle.nodup fresh,
    @nodup_insert _ _ _ [] _ cycle.nodup fresh⟩

theorem cycle_unlink {head before n : α} {xs : List α} (cycle : Cycle next head xs)
    (member : n ∈ xs) (inside : before ∈ head :: xs) (linked : next before = n) :
    ∃ ys, Cycle (Function.update next before (next n)) head ys ∧
      ∀ a, a ∈ ys ↔ a ∈ xs ∧ a ≠ n := by
  obtain ⟨pre, post, rfl⟩ := List.append_of_mem member
  have at_gap : next (lastNode head pre) = n := linked_at cycle.linked
  have last_mem : lastNode head pre ∈ head :: (pre ++ n :: post) := by
    have := lastNode_mem head pre
    simp only [List.mem_cons, List.mem_append] at this ⊢
    tauto
  have same := cycle_injective cycle last_mem inside (at_gap.trans linked.symm)
  have absent := (nodup_remove cycle.nodup).1
  refine ⟨pre ++ post, same ▸ @cycle_cut _ _ _ _ _ pre [] post cycle, fun a => ?_⟩
  simp only [List.mem_cons, List.mem_append, not_or] at absent ⊢
  constructor
  · rintro (inPre | inPost)
    · exact ⟨Or.inl inPre, by rintro rfl; exact absent.2.1 inPre⟩
    · exact ⟨Or.inr (Or.inr inPost), by rintro rfl; exact absent.2.2 inPost⟩
  · rintro ⟨inPre | at_n | inPost, other⟩
    · exact Or.inl inPre
    · exact absurd at_n other
    · exact Or.inr inPost

end CircularList

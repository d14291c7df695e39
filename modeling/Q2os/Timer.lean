import Mathlib.Algebra.Group.Int.Defs
import Mathlib.Algebra.Group.Nat.Defs
import Mathlib.Data.List.TakeWhile
import Q2os.KernelList
import Q2os.Run

/- The timer list of main.c: nodes ringed around timer_list_head, whose own expect_jiffies
   is the largest unsigned long and stops every search. -/
namespace Timer
open CircularList KernelList Run

def timerListHead : Nat := 0

/- expectJiffies is the field of each node. added and ran are the history: the nodes passed
   to add_timer and the nodes whose func was called, in order. -/
structure Timers where
  links : Links Nat
  expectJiffies : Nat → Nat
  jiffies : Nat
  added : List Nat
  ran : List Nat

def timerInit (s : Timers) : Timers :=
  ⟨listInit s.links timerListHead,
    Function.update s.expectJiffies timerListHead (2 ^ 64 - 1), 0, [], []⟩

/- while(tmp->expect_jiffies < timer->expect_jiffies) tmp = next of tmp -/
def seek (s : Timers) (limit : Nat) : Nat → Nat → Option Nat
  | 0, _ => none
  | fuel + 1, tmp =>
    if s.expectJiffies tmp < limit then seek s limit fuel (s.links.next tmp) else some tmp

def addTimer (fuel : Nat) (s : Timers) (timer : Nat) : Option Timers :=
  let tmp := s.links.next timerListHead
  let place := if listIsEmpty s.links timerListHead then some tmp
    else seek s (s.expectJiffies timer) fuel tmp
  place.map fun tmp =>
    { s with links := listAddToBehind s.links tmp timer, added := s.added ++ [timer] }

def delTimer (s : Timers) (timer : Nat) : Timers := { s with links := listDel s.links timer }

def doTimer : Nat → Timers → Option Timers
  | 0, _ => none
  | fuel + 1, s =>
    let tmp := s.links.next timerListHead
    if ¬ listIsEmpty s.links timerListHead ∧ s.expectJiffies tmp ≤ s.jiffies then
      doTimer fuel { delTimer s tmp with ran := s.ran ++ [tmp] }
    else some s

inductive Event where
  | add (timer expect : Nat)
  | tick (now : Nat)

def setExpect (s : Timers) (timer expect : Nat) : Timers :=
  { s with expectJiffies := Function.update s.expectJiffies timer expect }

inductive Step : Timers → Event → Timers → Prop where
  | add (s s' : Timers) (timer expect fuel : Nat)
      (returned : addTimer fuel (setExpect s timer expect) timer = some s') :
      Step s (.add timer expect) s'
  | tick (s s' : Timers) (now fuel : Nat)
      (returned : doTimer fuel { s with jiffies := now } = some s') : Step s (.tick now) s'

def InList (s : Timers) (timer : Nat) : Prop :=
  ∃ xs, Ring s.links timerListHead xs ∧ timer ∈ xs

/- A timer is added while it is not in the list, with a value below the sentinel's. -/
def Admissible (s : Timers) : Event → Prop
  | .add timer expect =>
    timer ≠ timerListHead ∧ ¬ InList s timer ∧ expect < s.expectJiffies timerListHead
  | .tick now => s.jiffies ≤ now

/- The list is empty, or one of its timers is due at the same time. -/
def KeepsOrder (s : Timers) : Event → Prop
  | .add _ expect =>
    listIsEmpty s.links timerListHead = true ∨ ∃ n, InList s n ∧ s.expectJiffies n = expect
  | .tick _ => True

def Ordered (expectJiffies : Nat → Nat) (xs : List Nat) : Prop :=
  xs.Pairwise fun a b => expectJiffies a ≤ expectJiffies b

/- What a step must show: every timer has run at most as often as it was added, and a call
   of do_timer ran only timers that were due, in order, and left none that is due. -/
def Punctual (s : Timers) (e : Event) (s' : Timers) : Prop :=
  (∀ n, s'.ran.count n ≤ s'.added.count n) ∧
  match e with
  | .add _ _ => s'.ran = s.ran
  | .tick now => ∃ fired, s'.ran = s.ran ++ fired ∧ (∀ n ∈ fired, s.expectJiffies n ≤ now) ∧
      Ordered s.expectJiffies fired ∧ ∀ n, InList s' n → now < s'.expectJiffies n

/- Where add_timer puts a timer: behind the first node not below it, which is the sentinel,
   hence the front, when every node is below. -/
def placed (expectJiffies : Nat → Nat) (timer : Nat) (xs : List Nat) : List Nat :=
  let early := xs.takeWhile fun n => expectJiffies n < expectJiffies timer
  match xs.dropWhile fun n => expectJiffies n < expectJiffies timer with
  | [] => timer :: xs
  | p :: post => early ++ p :: timer :: post

structure Queued (s : Timers) (xs : List Nat) : Prop where
  ring : Ring s.links timerListHead xs
  below : ∀ x ∈ xs, s.expectJiffies x < s.expectJiffies timerListHead
  counted : ∀ n, s.ran.count n + xs.count n = s.added.count n

theorem inList_iff {s : Timers} {xs : List Nat} (ring : Ring s.links timerListHead xs)
    (n : Nat) : InList s n ↔ n ∈ xs := by
  constructor
  · rintro ⟨ys, other, member⟩
    rwa [ring_unique ring other]
  · exact fun member => ⟨xs, ring, member⟩

theorem init_queued (s : Timers) : Queued (timerInit s) [] :=
  ⟨list_init_ring _ _, by simp, by simp [timerInit]⟩

theorem seek_eq (s : Timers) (limit : Nat) {a b : Nat} {pre post : List Nat}
    (path : Linked s.links.next a (pre ++ post) b)
    (low : ∀ x ∈ pre, s.expectJiffies x < limit)
    (high : limit ≤ s.expectJiffies (firstNode post b)) (fuel : Nat) :
    seek s limit fuel (s.links.next a) =
      if pre.length < fuel then some (firstNode post b) else none := by
  induction pre generalizing a fuel with
  | nil =>
    have reached : s.links.next a = firstNode post b := linked_head path
    cases fuel with
    | zero => rfl
    | succ fuel => simp [seek, reached, Nat.not_lt.mpr high]
  | cons x pre ih =>
    cases fuel with
    | zero => rfl
    | succ fuel =>
      have first := low x List.mem_cons_self
      have rest := ih path.2 (fun y member => low y (List.mem_cons_of_mem x member)) fuel
      have at_x : s.links.next a = x := path.1
      simp only [seek, at_x, first, ↓reduceIte, rest, List.length_cons, Nat.add_lt_add_iff_right]

theorem placed_perm (expectJiffies : Nat → Nat) (timer : Nat) (xs : List Nat) :
    (placed expectJiffies timer xs).Perm (timer :: xs) := by
  unfold placed
  have whole := List.takeWhile_append_dropWhile
    (p := fun n => decide (expectJiffies n < expectJiffies timer)) (l := xs)
  split
  · exact List.Perm.refl _
  · rename_i p post split
    rw [split] at whole
    have moved : (xs.takeWhile (fun n => decide (expectJiffies n < expectJiffies timer)) ++
        p :: timer :: post).Perm (timer :: (xs.takeWhile
          (fun n => decide (expectJiffies n < expectJiffies timer)) ++ p :: post)) := by
      have inner : (p :: timer :: post).Perm (timer :: p :: post) := List.Perm.swap _ _ _
      exact (List.Perm.append_left _ inner).trans List.perm_middle
    rwa [whole] at moved

theorem dropWhile_head_not {p : Nat → Bool} {xs post : List Nat} {x : Nat}
    (late : xs.dropWhile p = x :: post) : p x = false := by
  have head := List.head?_dropWhile_not p xs
  rw [late] at head
  simpa using head

theorem place_eq (s : Timers) (timer fuel : Nat) {xs : List Nat}
    (ring : Ring s.links timerListHead xs)
    (below : s.expectJiffies timer < s.expectJiffies timerListHead) :
    (if listIsEmpty s.links timerListHead then some (s.links.next timerListHead)
      else seek s (s.expectJiffies timer) fuel (s.links.next timerListHead)) =
    if xs = [] ∨ (xs.takeWhile fun n => s.expectJiffies n < s.expectJiffies timer).length < fuel
      then some (firstNode (xs.dropWhile fun n => s.expectJiffies n < s.expectJiffies timer)
        timerListHead)
      else none := by
  by_cases empty : xs = []
  · have flag := (list_is_empty_iff ring).mpr empty
    subst empty
    have itself : s.links.next timerListHead = timerListHead := ring.forward
    simp [flag, firstNode, itself]
  · have flag : listIsEmpty s.links timerListHead = false := by
      simpa [empty] using list_is_empty_iff ring
    have path := ring.forward
    rw [← List.takeWhile_append_dropWhile
      (p := fun n => decide (s.expectJiffies n < s.expectJiffies timer)) (l := xs)] at path
    have high : s.expectJiffies timer ≤ s.expectJiffies (firstNode
        (xs.dropWhile fun n => s.expectJiffies n < s.expectJiffies timer) timerListHead) := by
      cases late : xs.dropWhile fun n => decide (s.expectJiffies n < s.expectJiffies timer) with
      | nil => exact Nat.le_of_lt below
      | cons p post => simpa [firstNode] using dropWhile_head_not late
    have low : ∀ x ∈ xs.takeWhile fun n => s.expectJiffies n < s.expectJiffies timer,
        s.expectJiffies x < s.expectJiffies timer := by
      intro x member
      simpa using List.mem_takeWhile_imp member
    have found := seek_eq s (s.expectJiffies timer) path low high fuel
    simp only [flag, Bool.false_eq_true, ↓reduceIte, found, empty, false_or]

theorem placed_ring (s : Timers) (timer : Nat) {xs : List Nat}
    (ring : Ring s.links timerListHead xs) (fresh : timer ∉ timerListHead :: xs) :
    Ring (listAddToBehind s.links (firstNode
      (xs.dropWhile fun n => s.expectJiffies n < s.expectJiffies timer) timerListHead) timer)
      timerListHead (placed s.expectJiffies timer xs) := by
  have whole := List.takeWhile_append_dropWhile
    (p := fun n => decide (s.expectJiffies n < s.expectJiffies timer)) (l := xs)
  unfold placed
  cases late : xs.dropWhile fun n => decide (s.expectJiffies n < s.expectJiffies timer) with
  | nil => exact list_add_to_head_ring ring fresh
  | cons p post =>
    rw [late] at whole
    have parts : xs.takeWhile (fun n => decide (s.expectJiffies n < s.expectJiffies timer)) ++
        [p] ++ post = xs := by simpa using whole
    rw [← parts] at ring fresh
    have added := list_add_to_behind_ring ring fresh
    rw [lastNode_append] at added
    simpa [firstNode] using added

theorem add_timer_ring {s s' : Timers} {timer fuel : Nat} {xs : List Nat}
    (ring : Ring s.links timerListHead xs) (fresh : timer ∉ timerListHead :: xs)
    (below : s.expectJiffies timer < s.expectJiffies timerListHead)
    (returned : addTimer fuel s timer = some s') :
    Ring s'.links timerListHead (placed s.expectJiffies timer xs) ∧
      s' = { s with links := s'.links, added := s.added ++ [timer] } := by
  simp only [addTimer, place_eq s timer fuel ring below] at returned
  split at returned
  · simp only [Option.map_some, Option.some.injEq] at returned
    subst returned
    exact ⟨placed_ring s timer ring fresh, rfl⟩
  · simp at returned

theorem add_timer_returns (s : Timers) (timer : Nat) {xs : List Nat}
    (ring : Ring s.links timerListHead xs)
    (below : s.expectJiffies timer < s.expectJiffies timerListHead) :
    ∃ s', addTimer (xs.length + 1) s timer = some s' := by
  have short := (List.takeWhile_sublist
    (p := fun n => decide (s.expectJiffies n < s.expectJiffies timer)) (l := xs)).length_le
  have enough := Nat.lt_succ_of_le short
  simp only [addTimer, place_eq s timer (xs.length + 1) ring below]
  exact ⟨_, by rw [if_pos (Or.inr enough)]; rfl⟩

theorem placed_ordered_iff {expectJiffies : Nat → Nat} {timer : Nat} {xs : List Nat}
    (sorted : Ordered expectJiffies xs) :
    Ordered expectJiffies (placed expectJiffies timer xs) ↔
      xs = [] ∨ ∃ n ∈ xs, expectJiffies n = expectJiffies timer := by
  have whole := List.takeWhile_append_dropWhile
    (p := fun n => decide (expectJiffies n < expectJiffies timer)) (l := xs)
  have early : ∀ x ∈ xs.takeWhile fun n => expectJiffies n < expectJiffies timer,
      expectJiffies x < expectJiffies timer := by
    intro x member
    simpa using List.mem_takeWhile_imp member
  unfold placed
  cases late : xs.dropWhile fun n => decide (expectJiffies n < expectJiffies timer) with
  | nil =>
    rw [late, List.append_nil] at whole
    rw [whole] at early
    constructor
    · intro ordered
      cases xs with
      | nil => exact Or.inl rfl
      | cons x xs =>
        have up := (List.pairwise_cons.mp ordered).1 x List.mem_cons_self
        have down := early x List.mem_cons_self
        omega
    · rintro (rfl | ⟨n, member, same⟩)
      · exact List.pairwise_singleton _ _
      · have down := early n member
        omega
  | cons p post =>
    have at_least : expectJiffies timer ≤ expectJiffies p := by
      simpa using dropWhile_head_not late
    rw [late] at whole
    constructor
    · intro ordered
      have tail := (List.pairwise_append.mp ordered).2.1
      have up := (List.pairwise_cons.mp tail).1 timer List.mem_cons_self
      exact Or.inr ⟨p, by rw [← whole]; simp, by omega⟩
    · rintro (rfl | ⟨n, member, same⟩)
      · simp at late
      · rw [← whole] at member sorted
        obtain ⟨front, back, across⟩ := List.pairwise_append.mp sorted
        have behind := List.pairwise_cons.mp back
        have equal : expectJiffies p = expectJiffies timer := by
          rcases List.mem_append.mp member with first | second
          · have down := early n first
            omega
          · rcases List.mem_cons.mp second with at_p | later
            · rw [← at_p]; exact same
            · have up := behind.1 n later
              omega
        refine List.pairwise_append.mpr ⟨front, List.pairwise_cons.mpr
          ⟨?_, List.pairwise_cons.mpr ⟨?_, behind.2⟩⟩, ?_⟩
        · intro x hx
          rcases List.mem_cons.mp hx with rfl | later
          · omega
          · exact behind.1 x later
        · intro x hx
          have up := behind.1 x hx
          omega
        · intro x hx y hy
          rcases List.mem_cons.mp hy with rfl | rest
          · exact across x hx y List.mem_cons_self
          · rcases List.mem_cons.mp rest with rfl | later
            · exact Nat.le_of_lt (early x hx)
            · exact across x hx y (List.mem_cons_of_mem p later)

theorem do_timer_ring {fuel : Nat} {s s' : Timers} {xs : List Nat}
    (ring : Ring s.links timerListHead xs) (returned : doTimer fuel s = some s') :
    ∃ fired rest, xs = fired ++ rest ∧ Ring s'.links timerListHead rest ∧
      s' = { s with links := s'.links, ran := s.ran ++ fired } ∧
      (∀ n ∈ fired, s.expectJiffies n ≤ s.jiffies) ∧
      ∀ n later, rest = n :: later → s.jiffies < s.expectJiffies n := by
  induction fuel generalizing s xs with
  | zero => simp [doTimer] at returned
  | succ fuel ih =>
    simp only [doTimer] at returned
    split at returned
    · rename_i due
      cases xs with
      | nil => exact absurd ((list_is_empty_iff ring).mpr rfl) due.1
      | cons x xs =>
        have first : s.links.next timerListHead = x := ring.forward.1
        rw [first] at returned due
        obtain ⟨fired, rest, parts, ring', same, ready, later⟩ :=
          ih (list_del_head_ring ring) returned
        refine ⟨x :: fired, rest, congrArg (x :: ·) parts, ring', ?_, ?_, later⟩
        · rw [same]
          simp [delTimer]
        · intro n member
          rcases List.mem_cons.mp member with rfl | deeper
          · exact due.2
          · exact ready n deeper
    · rename_i idle
      simp only [Option.some.injEq] at returned
      subst returned
      refine ⟨[], xs, rfl, ring, by simp, by simp, ?_⟩
      rintro n later rfl
      have first : s.links.next timerListHead = n := ring.forward.1
      have busy : ¬ listIsEmpty s.links timerListHead = true := by
        rw [list_is_empty_iff ring]
        simp
      rw [first] at idle
      exact Nat.lt_of_not_le fun due => idle ⟨busy, due⟩

theorem do_timer_returns {fuel : Nat} {s : Timers} {xs : List Nat}
    (ring : Ring s.links timerListHead xs) (enough : xs.length < fuel) :
    ∃ s', doTimer fuel s = some s' := by
  induction fuel generalizing s xs with
  | zero => omega
  | succ fuel ih =>
    simp only [doTimer]
    split
    · rename_i due
      cases xs with
      | nil => exact absurd ((list_is_empty_iff ring).mpr rfl) due.1
      | cons x xs =>
        have first : s.links.next timerListHead = x := ring.forward.1
        rw [first]
        exact ih (list_del_head_ring ring) (by simpa using enough)
    · exact ⟨s, rfl⟩

def Sorted (s : Timers) : Prop := ∃ xs, Queued s xs ∧ Ordered s.expectJiffies xs

theorem setExpect_other {s : Timers} {timer expect n : Nat} (other : n ≠ timer) :
    (setExpect s timer expect).expectJiffies n = s.expectJiffies n :=
  Function.update_of_ne other _ _

theorem setExpect_ordered {s : Timers} {timer expect : Nat} {xs : List Nat}
    (fresh : timer ∉ xs) (sorted : Ordered s.expectJiffies xs) :
    Ordered (setExpect s timer expect).expectJiffies xs := by
  refine List.Pairwise.imp_of_mem ?_ sorted
  intro a b ha hb le
  rwa [setExpect_other (by rintro rfl; exact fresh ha),
    setExpect_other (by rintro rfl; exact fresh hb)]

theorem add_queued {s s' : Timers} {timer expect : Nat} {xs : List Nat} (h : Queued s xs)
    (allowed : Admissible s (.add timer expect)) (step : Step s (.add timer expect) s') :
    timer ∉ xs ∧ s'.expectJiffies = (setExpect s timer expect).expectJiffies ∧
      s'.ran = s.ran ∧ s'.jiffies = s.jiffies ∧
      Queued s' (placed (setExpect s timer expect).expectJiffies timer xs) := by
  obtain ⟨not_head, outside, small⟩ := allowed
  have fresh : timer ∉ xs := fun member => outside ((inList_iff h.ring timer).mpr member)
  have sentinel : (setExpect s timer expect).expectJiffies timerListHead =
      s.expectJiffies timerListHead := setExpect_other (Ne.symm not_head)
  have own : (setExpect s timer expect).expectJiffies timer = expect := Function.update_self ..
  cases step with
  | add _ _ _ fuel returned =>
    obtain ⟨ring, same⟩ := add_timer_ring (s := setExpect s timer expect) h.ring
      (by simp [not_head, fresh]) (by rw [own, sentinel]; exact small) returned
    have perm := placed_perm (setExpect s timer expect).expectJiffies timer xs
    refine ⟨fresh, by rw [same], by rw [same]; rfl, by rw [same]; rfl, ring, ?_, ?_⟩
    · intro x member
      rw [same]
      show (setExpect s timer expect).expectJiffies x <
        (setExpect s timer expect).expectJiffies timerListHead
      rw [sentinel]
      rcases List.mem_cons.mp (perm.mem_iff.mp member) with rfl | old
      · rw [own]; exact small
      · rw [setExpect_other (by rintro rfl; exact fresh old)]
        exact h.below x old
    · intro n
      have before := h.counted n
      have spread := perm.count_eq n
      rw [same]
      simp only [setExpect, List.count_append, List.count_cons, List.count_nil] at spread ⊢
      omega

theorem tick_queued {s s' : Timers} {now : Nat} {xs : List Nat} (h : Queued s xs)
    (step : Step s (.tick now) s') :
    ∃ fired rest, xs = fired ++ rest ∧ Queued s' rest ∧ s'.ran = s.ran ++ fired ∧
      s'.expectJiffies = s.expectJiffies ∧ (∀ n ∈ fired, s.expectJiffies n ≤ now) ∧
      ∀ n later, rest = n :: later → now < s.expectJiffies n := by
  cases step with
  | tick _ _ fuel returned =>
    obtain ⟨fired, rest, parts, ring, same, ready, later⟩ :=
      do_timer_ring (s := { s with jiffies := now }) h.ring returned
    refine ⟨fired, rest, parts, ⟨ring, ?_, ?_⟩, by rw [same], by rw [same], ready, later⟩
    · intro x member
      rw [same]
      exact h.below x (by rw [parts]; exact List.mem_append_right fired member)
    · intro n
      have before := h.counted n
      rw [same]
      simp only [parts, List.count_append] at before ⊢
      omega

theorem queued_once {s : Timers} {xs : List Nat} (h : Queued s xs) (n : Nat) :
    s.ran.count n ≤ s.added.count n := by
  have := h.counted n
  omega

theorem listIsEmpty_or_due_iff {s : Timers} {timer expect : Nat} {xs : List Nat}
    (h : Queued s xs) (fresh : timer ∉ xs) :
    KeepsOrder s (.add timer expect) ↔ xs = [] ∨ ∃ n ∈ xs,
      (setExpect s timer expect).expectJiffies n =
        (setExpect s timer expect).expectJiffies timer := by
  have own : (setExpect s timer expect).expectJiffies timer = expect := Function.update_self ..
  simp only [KeepsOrder, list_is_empty_iff h.ring, own]
  refine or_congr Iff.rfl ⟨?_, ?_⟩
  · rintro ⟨n, inside, same⟩
    have member := (inList_iff h.ring n).mp inside
    exact ⟨n, member, by rwa [setExpect_other (by rintro rfl; exact fresh member)]⟩
  · rintro ⟨n, member, same⟩
    refine ⟨n, (inList_iff h.ring n).mpr member, ?_⟩
    rwa [setExpect_other (by rintro rfl; exact fresh member)] at same

theorem add_keeps_order {s s' : Timers} {timer expect : Nat} {xs : List Nat} (h : Queued s xs)
    (sorted : Ordered s.expectJiffies xs) (allowed : Admissible s (.add timer expect))
    (keeps : KeepsOrder s (.add timer expect)) (step : Step s (.add timer expect) s') :
    Sorted s' ∧ Punctual s (.add timer expect) s' := by
  obtain ⟨fresh, expects, ran, _, queued⟩ := add_queued h allowed step
  refine ⟨⟨_, queued, ?_⟩, queued_once queued, ran⟩
  rw [expects]
  exact (placed_ordered_iff (setExpect_ordered fresh sorted)).mpr
    ((listIsEmpty_or_due_iff h fresh).mp keeps)

theorem tick_keeps_order {s s' : Timers} {now : Nat} {xs : List Nat} (h : Queued s xs)
    (sorted : Ordered s.expectJiffies xs) (step : Step s (.tick now) s') :
    Sorted s' ∧ Punctual s (.tick now) s' := by
  obtain ⟨fired, rest, parts, queued, ran, expects, ready, later⟩ := tick_queued h step
  rw [parts] at sorted
  obtain ⟨front, back, _⟩ := List.pairwise_append.mp sorted
  refine ⟨⟨rest, queued, by rw [expects]; exact back⟩, queued_once queued,
    fired, ran, ready, front, ?_⟩
  intro n inside
  have member := (inList_iff queued.ring n).mp inside
  rw [expects]
  cases rest with
  | nil => simp at member
  | cons first others =>
    have soon := later first others rfl
    rcases List.mem_cons.mp member with rfl | behind
    · exact soon
    · have le := (List.pairwise_cons.mp back).1 n behind
      omega

theorem step_sorted (s : Timers) (e : Event) (s' : Timers) (h : Sorted s)
    (step : Guarded KeepsOrder (Guarded Admissible Step) s e s') :
    Sorted s' ∧ Punctual s e s' := by
  obtain ⟨xs, queued, sorted⟩ := h
  obtain ⟨⟨step, allowed⟩, keeps⟩ := step
  cases e with
  | add timer expect => exact add_keeps_order queued sorted allowed keeps step
  | tick now => exact tick_keeps_order queued sorted step

theorem step_tick_returns {s : Timers} {xs : List Nat} (h : Queued s xs) (now : Nat) :
    ∃ s', Step s (.tick now) s' := by
  obtain ⟨s', returned⟩ := do_timer_returns (s := { s with jiffies := now }) h.ring
    (Nat.lt_succ_self xs.length)
  exact ⟨s', .tick s s' now _ returned⟩

theorem step_returns {s : Timers} (h : Sorted s) (e : Event) (allowed : Admissible s e) :
    ∃ s', Step s e s' := by
  obtain ⟨xs, queued, _⟩ := h
  cases e with
  | add timer expect =>
    have sentinel : (setExpect s timer expect).expectJiffies timerListHead =
        s.expectJiffies timerListHead := setExpect_other (Ne.symm allowed.1)
    have own : (setExpect s timer expect).expectJiffies timer = expect :=
      Function.update_self ..
    obtain ⟨s', returned⟩ := add_timer_returns (setExpect s timer expect) timer queued.ring
      (by rw [own, sentinel]; exact allowed.2.2)
    exact ⟨s', .add s s' timer expect _ returned⟩
  | tick now => exact step_tick_returns queued now

theorem init_sorted (s : Timers) : Sorted (timerInit s) :=
  ⟨[], init_queued s, List.Pairwise.nil⟩

/- While every timer is added to an empty list or beside one due at the same time, each call
   of do_timer runs what is due, in order, and each call returns. -/
theorem timers_fire_in_order (s₀ s : Timers) (es : List Event)
    (run : Steps (Guarded KeepsOrder (Guarded Admissible Step)) (timerInit s₀) es s) :
    Steps (Meeting Punctual Step) (timerInit s₀) es s ∧
      ∀ e, Admissible s e → ∃ s', Step s e s' := by
  have good := steps_meeting step_sorted run (init_sorted s₀)
  have sorted := invariant_of_step (fun s e t h step => (step_sorted s e t h step).1) run
    (init_sorted s₀)
  exact ⟨steps_mono (fun _ _ _ step => ⟨step.1.1.1, step.2⟩) good, step_returns sorted⟩

/- A call of do_timer late enough runs the whole list, so it shows every misplaced timer. -/
theorem add_timer_order_exact {s s₁ : Timers} {timer expect : Nat} {xs : List Nat}
    (h : Queued s xs) (sorted : Ordered s.expectJiffies xs)
    (allowed : Admissible s (.add timer expect)) (step : Step s (.add timer expect) s₁) :
    (∀ now s₂, s₁.jiffies ≤ now → Step s₁ (.tick now) s₂ → Punctual s₁ (.tick now) s₂) ↔
      KeepsOrder s (.add timer expect) := by
  obtain ⟨fresh, expects, _, _, queued⟩ := add_queued h allowed step
  have sorted' : Ordered (setExpect s timer expect).expectJiffies xs :=
    setExpect_ordered fresh sorted
  constructor
  · intro punctual
    let now := max s₁.jiffies (s₁.expectJiffies timerListHead)
    obtain ⟨s₂, returned⟩ := step_tick_returns queued now
    obtain ⟨fired, rest, parts, _, ran, _, _, later⟩ := tick_queued queued returned
    have all : rest = [] := by
      cases rest with
      | nil => rfl
      | cons n others =>
        have soon := later n others rfl
        have below := queued.below n (by rw [parts]; simp)
        omega
    obtain ⟨_, called, same, _, order, _⟩ :=
      punctual now s₂ (Nat.le_max_left _ _) returned
    have equal : called = fired := List.append_cancel_left (same.symm.trans ran)
    rw [all, List.append_nil] at parts
    rw [equal, ← parts, expects] at order
    exact (listIsEmpty_or_due_iff h fresh).mpr ((placed_ordered_iff sorted').mp order)
  · intro keeps now s₂ _ tick
    have order := (placed_ordered_iff sorted').mpr ((listIsEmpty_or_due_iff h fresh).mp keeps)
    rw [← expects] at order queued
    exact (tick_keeps_order queued order tick).2

def noTimers : Timers := timerInit ⟨⟨id, id⟩, fun _ => 0, 0, [], []⟩

def addBehind (s : Timers) (timer expect tmp : Nat) : Timers :=
  let s := setExpect s timer expect
  { s with links := listAddToBehind s.links tmp timer, added := s.added ++ [timer] }

theorem no_timers_queued : Queued noTimers [] := init_queued _

theorem first_admissible (timer expect : Nat) (not_head : timer ≠ timerListHead)
    (small : expect < 2 ^ 64 - 1) : Admissible noTimers (.add timer expect) :=
  ⟨not_head, by simp [inList_iff no_timers_queued.ring], small⟩

/- Timers 1 and 2 are due at 5; do_timer runs nothing at 3 and both at 6. Timer 1 is then added
   again, for 9, and runs a second time. -/
def bothWait : Timers := { addBehind (addBehind noTimers 1 5 0) 2 5 1 with jiffies := 3 }

def bothRan : Timers := (doTimer 3 { bothWait with jiffies := 6 }).getD noTimers

def againRan : Timers :=
  (doTimer 2 { addBehind bothRan 1 9 0 with jiffies := 9 }).getD noTimers

theorem first_ring : Ring (addBehind noTimers 1 5 0).links timerListHead [1] :=
  ⟨⟨rfl, rfl⟩, ⟨rfl, rfl⟩, by decide⟩

theorem both_ran_ring : Ring bothRan.links timerListHead [] := ⟨rfl, rfl, by decide⟩

theorem timers_fire_in_order_again : againRan.ran = [1, 2, 1] ∧
    Steps (Meeting Punctual Step) noTimers
      [.add 1 5, .add 2 5, .tick 3, .tick 6, .add 1 9, .tick 9] againRan ∧
    ∀ e, Admissible againRan e → ∃ s', Step againRan e s' := by
  have beside : KeepsOrder (addBehind noTimers 1 5 0) (.add 2 5) :=
    Or.inr ⟨1, ⟨[1], first_ring, by decide⟩, rfl⟩
  have fresh : ¬ InList (addBehind noTimers 1 5 0) 2 := by simp [inList_iff first_ring]
  have gone : ¬ InList bothRan 1 := by simp [inList_iff both_ran_ring]
  refine ⟨by decide, timers_fire_in_order _ _ _ ?_⟩
  exact .cons ⟨⟨.add _ _ 1 5 1 rfl, first_admissible 1 5 (by decide) (by decide)⟩, Or.inl rfl⟩
    (.cons ⟨⟨.add _ _ 2 5 1 rfl, by decide, fresh, by decide⟩, beside⟩
    (.cons ⟨⟨.tick _ bothWait 3 1 rfl, Nat.zero_le 3⟩, trivial⟩
    (.cons ⟨⟨.tick _ bothRan 6 3 rfl, (by decide : 3 ≤ 6)⟩, trivial⟩
    (.cons ⟨⟨.add _ _ 1 9 1 rfl, by decide, gone, by decide⟩, Or.inl rfl⟩
    (.cons ⟨⟨.tick _ againRan 9 2 rfl, (by decide : 6 ≤ 9)⟩, trivial⟩ (.nil _))))))

/- Timer 1 due at 10 is added, then timer 2 due at 5, which lands behind it; at 7 do_timer
   sees timer 1 first and leaves timer 2. -/
def oneTimer : Timers := addBehind noTimers 1 10 0

def reversedTimers : Timers := addBehind oneTimer 2 5 1

theorem one_timer_ring : Ring oneTimer.links timerListHead [1] :=
  ⟨⟨rfl, rfl⟩, ⟨rfl, rfl⟩, by decide⟩

theorem reversed_ring : Ring reversedTimers.links timerListHead [1, 2] :=
  ⟨⟨rfl, rfl, rfl⟩, ⟨rfl, rfl, rfl⟩, by decide⟩

theorem timers_left_behind :
    ¬ ∀ s₀ es s e s', Steps (Guarded Admissible Step) (timerInit s₀) es s →
      Guarded Admissible Step s e s' → Punctual s e s' := by
  intro claim
  have first : Guarded Admissible Step noTimers (.add 1 10) oneTimer :=
    ⟨.add _ _ 1 10 1 rfl, first_admissible 1 10 (by decide) (by decide)⟩
  have second : Guarded Admissible Step oneTimer (.add 2 5) reversedTimers :=
    ⟨.add _ _ 2 5 1 rfl, by decide, by simp [inList_iff one_timer_ring], by decide⟩
  have tick : Guarded Admissible Step reversedTimers (.tick 7)
      { reversedTimers with jiffies := 7 } := ⟨.tick _ _ 7 1 rfl, Nat.zero_le 7⟩
  obtain ⟨_, _, _, _, _, left⟩ := claim _ [.add 1 10, .add 2 5] _ _ _
    (.cons first (.cons second (.nil _))) tick
  exact absurd (left 2 ⟨[1, 2], reversed_ring, by decide⟩) (by decide)

end Timer

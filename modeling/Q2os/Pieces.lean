import Mathlib.Data.List.TakeWhile

/- The pieces of a list between the elements that cut it, without the empty ones. -/
namespace Pieces
variable {α : Type} {cut : α → Bool}

def pieces (cut : α → Bool) (l : List α) : List (List α) := (l.splitOnP cut).filter fun w => !w.isEmpty

theorem pieces_nil : pieces cut [] = [] := rfl

theorem pieces_append_cons (a b : List α) {c : α} (here : cut c = true) :
    pieces cut (a ++ c :: b) = pieces cut a ++ pieces cut b := by
  rw [pieces, List.splitOnP_append_cons a b here, List.filter_append]
  rfl

theorem pieces_cut (l : List α) {c : α} (here : cut c = true) : pieces cut (c :: l) = pieces cut l :=
  pieces_append_cons [] l here

theorem pieces_dropWhile (l : List α) : pieces cut (l.dropWhile cut) = pieces cut l := by
  induction l with
  | nil => rfl
  | cons c l ih =>
    cases here : cut c with
    | true => rw [List.dropWhile_cons_of_pos here, ih, pieces_cut l here]
    | false => rw [List.dropWhile_cons_of_neg (by rw [here]; exact Bool.false_ne_true)]

theorem pieces_one {w : List α} (some_ : w ≠ []) (solid : ∀ c ∈ w, cut c = false) : pieces cut w = [w] := by
  rw [pieces, List.splitOnP_eq_singleton solid]
  cases w with
  | nil => exact absurd rfl some_
  | cons c w => rfl

/-- A piece in front, up to the end or to an element that cuts. -/
theorem pieces_front {w rest : List α} (some_ : w ≠ []) (solid : ∀ c ∈ w, cut c = false)
    (stop : ∀ c ∈ rest.head?, cut c = true) : pieces cut (w ++ rest) = w :: pieces cut rest := by
  cases rest with
  | nil => rw [List.append_nil, pieces_one some_ solid, pieces_nil]
  | cons c rest =>
    have here := stop c rfl
    rw [pieces_append_cons w rest here, pieces_one some_ solid, pieces_cut rest here]
    rfl

theorem takeWhile_solid (l : List α) : ∀ c ∈ l.takeWhile (fun c => !cut c), cut c = false := by
  intro c member
  have kept := List.mem_takeWhile_imp member
  simpa using kept

/- What is left of a list begins with no cut, or with one. -/
theorem dropWhile_start (l : List α) : ∀ c ∈ (l.dropWhile cut).head?, cut c = false := by
  intro c member
  have start := List.head?_dropWhile_not cut l
  rw [Option.mem_def] at member
  rw [member] at start
  simpa using start

theorem dropWhile_stop (l : List α) : ∀ c ∈ (l.dropWhile fun c => !cut c).head?, cut c = true := by
  intro c member
  have stop := @dropWhile_start _ (fun c => !cut c) l c member
  simpa using stop

/- The first piece of a list that does not begin with a cut, and what is behind it. -/
theorem pieces_cons {c : α} (solid : cut c = false) (l : List α) :
    pieces cut (c :: l) = (c :: l.takeWhile fun c => !cut c) :: pieces cut (l.dropWhile fun c => !cut c) := by
  have parts : c :: l = (c :: l.takeWhile fun c => !cut c) ++ l.dropWhile fun c => !cut c := by
    rw [List.cons_append, List.takeWhile_append_dropWhile]
  have whole : ∀ d ∈ c :: l.takeWhile fun c => !cut c, cut d = false := by
    intro d member
    cases member with
    | head => exact solid
    | tail _ member => exact takeWhile_solid l d member
  calc pieces cut (c :: l) = pieces cut ((c :: l.takeWhile fun c => !cut c) ++ l.dropWhile fun c => !cut c) :=
        congrArg (pieces cut) parts
    _ = _ := pieces_front (List.cons_ne_nil _ _) whole (dropWhile_stop l)

/- The pieces counted at their last elements. -/
theorem pieces_length_last {c : α} (solid : cut c = false) {l : List α} (stop : ∀ d ∈ l.head?, cut d = true) :
    (pieces cut (c :: l)).length = (pieces cut l).length + 1 := by
  have front := @pieces_front _ cut [c] l (List.cons_ne_nil _ _) (fun d member => by
    rw [List.mem_singleton.mp member]
    exact solid) stop
  rw [show c :: l = [c] ++ l from rfl, front, List.length_cons]

theorem pieces_length_more {c d : α} (solid : cut c = false) (solid' : cut d = false) (l : List α) :
    (pieces cut (c :: d :: l)).length = (pieces cut (d :: l)).length := by
  rw [pieces_cons solid, pieces_cons solid', List.length_cons, List.length_cons,
    List.dropWhile_cons_of_pos (by rw [solid']; rfl)]

end Pieces

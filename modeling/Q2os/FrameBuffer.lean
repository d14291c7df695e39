import Mathlib.Tactic.Ring
import Q2os.Console

/- The cells of the output loop and the memory of the frame buffer, with the way that each character
   takes the cursor. -/
namespace Printk
open Fat32 (toInt32)

/- A frame buffer in the physical memory from 0xe0000000 to 4GB, with two rows of characters at least. -/
structure FrameBuffer (p : Position) : Prop extends OnScreen p where
  pixels : p.XResolution * p.YResolution ≤ 2 ^ 27
  lines : 32 ≤ p.YResolution

/- All pixels of the cell lie somewhere in the frame buffer. -/
def InMemory (p : Position) (c : Cell) : Prop :=
  ∀ i < 16, ∀ j < 8, 0 ≤ pixel p.XResolution c i j ∧
    pixel p.XResolution c i j < p.XResolution * p.YResolution

def wrapped (columns rows x y : Int) : Int × Int :=
  let line := if columns ≤ x then (0, y + 1) else (x, y)
  if rows ≤ line.2 then (line.1, 0) else line

def cursorAfter (columns rows : Int) (at_ : Int × Int) (c : UInt8) : Int × Int :=
  if c = newline then wrapped columns rows 0 (at_.2 + 1)
  else if c = backspace then
    if 0 < at_.1 then (at_.1 - 1, at_.2)
    else if columns = 1 ∧ 0 < at_.2 then (0, at_.2 - 1) else (0, at_.2)
  else if c = tab then
    (fun here : Int × Int => wrapped columns rows (here.1 + 1) here.2)^[(8 - at_.1 % 8).toNat] at_
  else wrapped columns rows (at_.1 + 1) at_.2

section cursor
variable {p : Position} {o : Output} {buf : Nat → UInt8} {font : UInt8}

theorem FrameBuffer.at (frame : FrameBuffer p) {x y : Int} (left : 0 ≤ x) (right : x < p.columns)
    (top : 0 ≤ y) (bottom : y < p.rows) : FrameBuffer { p with XPosition := x, YPosition := y } :=
  { frame.toOnScreen.at left right top bottom with
    pixels := frame.pixels
    lines := frame.lines }

theorem wrapped_inside {columns rows x y : Int} (wide : 0 < columns) (high : 0 < rows) (left : 0 ≤ x)
    (top : 0 ≤ y) : 0 ≤ (wrapped columns rows x y).1 ∧ (wrapped columns rows x y).1 < columns ∧
      0 ≤ (wrapped columns rows x y).2 ∧ (wrapped columns rows x y).2 < rows := by
  unfold wrapped
  by_cases far : columns ≤ x
  · rw [if_pos far]
    by_cases low : rows ≤ y + 1
    · rw [if_pos low]
      exact ⟨Int.le_refl 0, wide, Int.le_refl 0, high⟩
    · rw [if_neg low]
      exact ⟨Int.le_refl 0, wide, by omega, by omega⟩
  · rw [if_neg far]
    by_cases low : rows ≤ y
    · rw [if_pos low]
      exact ⟨left, by omega, Int.le_refl 0, high⟩
    · rw [if_neg low]
      exact ⟨left, by omega, top, by omega⟩

theorem wrap_move {x y : Int} (fits : toInt32 (y + 1) = y + 1) :
    (o.move x y).wrapLine.wrapScreen =
      o.move (wrapped o.pos.columns o.pos.rows x y).1 (wrapped o.pos.columns o.pos.rows x y).2 := by
  have screen : ∀ here : Int × Int, (o.move here.1 here.2).wrapScreen =
      o.move (if o.pos.rows ≤ here.2 then (here.1, 0) else here).1
        (if o.pos.rows ≤ here.2 then (here.1, 0) else here).2 := by
    intro here
    unfold Output.wrapScreen
    by_cases low : o.pos.rows ≤ here.2
    · have low' : (o.move here.1 here.2).pos.rows ≤ (o.move here.1 here.2).pos.YPosition := low
      rw [if_pos low', if_pos low]
      rfl
    · have low' : ¬ (o.move here.1 here.2).pos.rows ≤ (o.move here.1 here.2).pos.YPosition := low
      rw [if_neg low', if_neg low]
  unfold wrapped Output.wrapLine
  by_cases far : o.pos.columns ≤ x
  · have far' : (o.move x y).pos.columns ≤ (o.move x y).pos.XPosition := far
    rw [if_pos far', if_pos far]
    show (o.move 0 (toInt32 (y + 1))).wrapScreen = _
    rw [fits]
    exact screen (0, y + 1)
  · have far' : ¬ (o.move x y).pos.columns ≤ (o.move x y).pos.XPosition := far
    rw [if_neg far', if_neg far]
    exact screen (x, y)

theorem frame_pixels (frame : FrameBuffer p) {k : Int} (positive : 0 ≤ k) (inside : k < p.YResolution) :
    0 ≤ p.XResolution * k ∧ p.XResolution * k + p.XResolution ≤ p.XResolution * p.YResolution := by
  have wide := frame.wide
  refine ⟨Int.mul_nonneg (by omega) positive, ?_⟩
  calc p.XResolution * k + p.XResolution = p.XResolution * (k + 1) := by ring
    _ ≤ p.XResolution * p.YResolution := Int.mul_le_mul_of_nonneg_left (by omega) (by omega)

theorem grid_inMemory (frame : FrameBuffer p) {x y : Int} (left : 0 ≤ x) (right : x < p.columns)
    (top : 0 ≤ y) (bottom : y < p.rows) :
    InMemory p ⟨toInt32 (x * p.XCharSize), toInt32 (y * p.YCharSize), font⟩ := by
  have pixels := frame.pixels
  have rows := frame.rows
  have counted : p.XResolution * (16 * y + 15) < 2 ^ 31 := by
    have last := frame_pixels frame (k := 16 * y + 15) (by omega) (by omega)
    have wide := frame.wide
    omega
  have cell := @cell_inFrame p font frame.toOnScreen x y left right top bottom counted
  intro i inside j inside'
  have left' := cell.left
  have right' := cell.right
  have top' := cell.top
  have bottom' := cell.bottom
  rw [cell.pixels i inside j inside']
  have row := frame_pixels frame (k := (⟨toInt32 (x * p.XCharSize), toInt32 (y * p.YCharSize), font⟩ : Cell).y + i)
    (by omega) (by omega)
  omega

end cursor

/- The cursor went to a place, and the new cells lie in the frame buffer under a condition. -/
structure Went (o o' : Output) (at_ : Int × Int) (clean : Prop) : Prop where
  pos : o'.pos = { o.pos with XPosition := at_.1, YPosition := at_.2 }
  cells : (∀ c ∈ o'.drawn, InMemory o.pos c) ↔ (∀ c ∈ o.drawn, InMemory o.pos c) ∧ clean

section rounds
variable {p : Position} {o : Output} {buf : Nat → UInt8} {font : UInt8}

def Output.here (o : Output) : Int × Int := (o.pos.XPosition, o.pos.YPosition)

theorem draw_went {x y : Int} {clean : Prop}
    (cell : InMemory o.pos ⟨toInt32 (o.pos.XPosition * o.pos.XCharSize),
      toInt32 (o.pos.YPosition * o.pos.YCharSize), font⟩ ↔ clean) :
    Went o ((o.draw font).move x y) (x, y) clean := by
  refine ⟨rfl, ?_⟩
  show (∀ c ∈ _ :: o.drawn, InMemory o.pos c) ↔ _
  rw [List.forall_mem_cons, and_comm, cell]

theorem drawNext_wrap (frame : FrameBuffer o.pos) :
    (o.drawNext font).wrapLine.wrapScreen =
      (o.draw font).move (wrapped o.pos.columns o.pos.rows (o.pos.XPosition + 1) o.pos.YPosition).1
        (wrapped o.pos.columns o.pos.rows (o.pos.XPosition + 1) o.pos.YPosition).2 := by
  have left := frame.left
  have right := frame.right
  have top := frame.top
  have bottom := frame.bottom
  have XResolution := frame.XResolution
  have YResolution := frame.YResolution
  have fits : toInt32 (o.pos.XPosition + 1) = o.pos.XPosition + 1 := toInt32_fits (by omega) (by omega)
  unfold Output.drawNext
  rw [fits]
  exact wrap_move (o := o.draw font) (toInt32_fits (by omega) (by omega))

theorem drawNext_went (frame : FrameBuffer o.pos) :
    Went o (o.drawNext font).wrapLine.wrapScreen
      (wrapped o.pos.columns o.pos.rows (o.pos.XPosition + 1) o.pos.YPosition) True := by
  rw [drawNext_wrap frame]
  refine draw_went (iff_true_intro ?_)
  exact grid_inMemory frame frame.left (frame.columns ▸ frame.right) frame.top (frame.rows ▸ frame.bottom)

theorem newline_went (frame : FrameBuffer o.pos) :
    Went o (o.move 0 (toInt32 (o.pos.YPosition + 1))).wrapLine.wrapScreen
      (wrapped o.pos.columns o.pos.rows 0 (o.pos.YPosition + 1)) True := by
  have top := frame.top
  have bottom := frame.bottom
  have YResolution := frame.YResolution
  have fits : toInt32 (o.pos.YPosition + 1) = o.pos.YPosition + 1 := toInt32_fits (by omega) (by omega)
  rw [fits, wrap_move (toInt32_fits (by omega) (by omega))]
  exact ⟨rfl, fun cells => ⟨cells, trivial⟩, And.left⟩

theorem placed_went {x y : Int} {clean : Prop} (fits : toInt32 (y + 1) = y + 1)
    (cell : InMemory o.pos ⟨toInt32 (x * o.pos.XCharSize), toInt32 (y * o.pos.YCharSize), font⟩ ↔ clean) :
    Went o ((o.move x y).draw font).wrapLine.wrapScreen (wrapped o.pos.columns o.pos.rows x y) clean := by
  have moved := @wrap_move { o with drawn :=
    ⟨toInt32 (x * o.pos.XCharSize), toInt32 (y * o.pos.YCharSize), font⟩ :: o.drawn } x y fits
  refine moved ▸ ⟨rfl, ?_⟩
  show (∀ c ∈ _ :: o.drawn, InMemory o.pos c) ↔ _
  rw [List.forall_mem_cons, and_comm, cell]

theorem wrapped_same {columns rows x y : Int} (right : x < columns) (bottom : y < rows) :
    wrapped columns rows x y = (x, y) := by
  have near : ¬ columns ≤ x := by omega
  unfold wrapped
  rw [if_neg near]
  exact if_neg (by show ¬ rows ≤ y; omega)

/- Where the tests for a wrap take the places of a backspace, which are 8 and 16 times too far. -/
theorem back_home_wrapped {columns rows : Int} (wide : 0 < columns) (high : 1 < rows) :
    wrapped columns rows ((columns - 1) * 8) ((rows - 1) * 16) = (0, 0) := by
  unfold wrapped
  by_cases far : columns ≤ (columns - 1) * 8
  · have low : rows ≤ (rows - 1) * 16 + 1 := by omega
    rw [if_pos far]
    exact if_pos low
  · have one : (columns - 1) * 8 = 0 := by omega
    have low : rows ≤ (rows - 1) * 16 := by omega
    rw [if_neg far, one]
    exact if_pos low

theorem back_column_wrapped {columns rows y : Int} (wide : 0 < columns) (top : 0 < y) (bottom : y < rows) :
    (if columns = 1 ∧ 0 < y then (0, y - 1) else (0, y)) = wrapped columns rows ((columns - 1) * 8) (y - 1) := by
  unfold wrapped
  by_cases far : columns ≤ (columns - 1) * 8
  · have high : ¬ rows ≤ y - 1 + 1 := by omega
    have same : y - 1 + 1 = y := by omega
    rw [if_neg (fun both => by omega), if_pos far]
    show (0, y) = if rows ≤ y - 1 + 1 then (0, 0) else (0, y - 1 + 1)
    rw [if_neg high, same]
  · have one : (columns - 1) * 8 = 0 := by omega
    have high : ¬ rows ≤ y - 1 := by omega
    rw [if_pos ⟨by omega, top⟩, if_neg far, one]
    exact (if_neg high).symm

/- The cell that is drawn for a backspace in the first column: 8 times too far to the right. -/
theorem back_column_inMemory (frame : FrameBuffer p) {y : Int} (top : 0 ≤ y) (bottom : y + 1 < p.rows) :
    InMemory p ⟨toInt32 (toInt32 ((p.columns - 1) * p.XCharSize) * p.XCharSize),
      toInt32 (y * p.YCharSize), font⟩ := by
  have wide := frame.wide
  have lines := frame.lines
  have pixels := frame.pixels
  have XResolution := frame.XResolution
  have YResolution := frame.YResolution
  have columns := frame.columns
  have rows := frame.rows
  have area := frame_pixels frame (k := 31) (by omega) (by omega)
  have x₁ : toInt32 ((p.columns - 1) * 8) = (p.columns - 1) * 8 := toInt32_fits (by omega) (by omega)
  have x₂ : toInt32 ((p.columns - 1) * 8 * 8) = (p.columns - 1) * 8 * 8 := toInt32_fits (by omega) (by omega)
  have y₁ : toInt32 (y * 16) = y * 16 := toInt32_fits (by omega) (by omega)
  rw [frame.XCharSize, frame.YCharSize, x₁, x₂, y₁]
  intro i inside j inside'
  have row := frame_pixels frame (k := y * 16 + i) (by omega) (by omega)
  have last := frame_pixels frame (k := y * 16 + i + 8) (by omega) (by omega)
  have lower : p.XResolution * (y * 16 + i + 8) = p.XResolution * (y * 16 + i) + 8 * p.XResolution := by ring
  have height : toInt32 (y * 16 + i) = y * 16 + i := toInt32_fits (by omega) (by omega)
  unfold pixel
  rw [height, toInt32_fits (by omega) (by omega)]
  show 0 ≤ p.XResolution * (y * 16 + i) + (p.columns - 1) * 8 * 8 + j ∧
    p.XResolution * (y * 16 + i) + (p.columns - 1) * 8 * 8 + j < p.XResolution * p.YResolution
  omega

/- The cell that is drawn for a backspace in the first cell: 16 times too far down. -/
theorem back_home_outside (frame : FrameBuffer p) :
    ¬ InMemory p ⟨toInt32 (toInt32 ((p.columns - 1) * p.XCharSize) * p.XCharSize),
      toInt32 (toInt32 ((p.rows - 1) * p.YCharSize) * p.YCharSize), font⟩ := by
  have wide := frame.wide
  have lines := frame.lines
  have pixels := frame.pixels
  have XResolution := frame.XResolution
  have YResolution := frame.YResolution
  have columns := frame.columns
  have rows := frame.rows
  have area := frame_pixels frame (k := 31) (by omega) (by omega)
  have short : 8 * p.YResolution ≤ p.XResolution * p.YResolution :=
    Int.mul_le_mul_of_nonneg_right wide (by omega)
  have x₁ : toInt32 ((p.columns - 1) * 8) = (p.columns - 1) * 8 := toInt32_fits (by omega) (by omega)
  have x₂ : toInt32 ((p.columns - 1) * 8 * 8) = (p.columns - 1) * 8 * 8 := toInt32_fits (by omega) (by omega)
  have y₁ : toInt32 ((p.rows - 1) * 16) = (p.rows - 1) * 16 := toInt32_fits (by omega) (by omega)
  have y₂ : toInt32 ((p.rows - 1) * 16 * 16) = (p.rows - 1) * 16 * 16 := toInt32_fits (by omega) (by omega)
  have y₃ : toInt32 ((p.rows - 1) * 16 * 16 + (0 : Nat)) = (p.rows - 1) * 16 * 16 :=
    toInt32_fits (by omega) (by omega) |>.trans (Int.add_zero _)
  have below : p.XResolution * p.YResolution ≤ p.XResolution * ((p.rows - 1) * 16 * 16) :=
    Int.mul_le_mul_of_nonneg_left (by omega) (by omega)
  have above : p.XResolution * ((p.rows - 1) * 16 * 16) ≤ p.XResolution * (16 * (p.YResolution - 1)) :=
    Int.mul_le_mul_of_nonneg_left (by omega) (by omega)
  have all : p.XResolution * (16 * (p.YResolution - 1)) =
      16 * (p.XResolution * p.YResolution) - 16 * p.XResolution := by ring
  rw [frame.XCharSize, frame.YCharSize, x₁, x₂, y₁, y₂]
  intro inside
  have first := (inside 0 (by decide) 0 (by decide)).2
  unfold pixel at first
  rw [y₃, toInt32_fits (by omega) (by omega)] at first
  have first' : p.XResolution * ((p.rows - 1) * 16 * 16) + (p.columns - 1) * 8 * 8 + (0 : Nat) <
      p.XResolution * p.YResolution := first
  omega

theorem back_went (frame : FrameBuffer o.pos) :
    Went o o.back.wrapLine.wrapScreen (cursorAfter o.pos.columns o.pos.rows o.here backspace)
      (¬ o.here = (0, 0)) := by
  have left := frame.left
  have top := frame.top
  have wide := frame.wide
  have lines := frame.lines
  have columns := frame.columns
  have rows := frame.rows
  have right : o.pos.XPosition < o.pos.columns := columns ▸ frame.right
  have bottom : o.pos.YPosition < o.pos.rows := rows ▸ frame.bottom
  have XResolution := frame.XResolution
  have YResolution := frame.YResolution
  have fits : toInt32 (o.pos.XPosition - 1) = o.pos.XPosition - 1 := toInt32_fits (by omega) (by omega)
  have fits' : toInt32 (o.pos.YPosition - 1) = o.pos.YPosition - 1 := toInt32_fits (by omega) (by omega)
  have columns_fit : toInt32 ((o.pos.columns - 1) * o.pos.XCharSize) = (o.pos.columns - 1) * 8 := by
    rw [frame.XCharSize, toInt32_fits (by omega) (by omega)]
  have rows_fit : toInt32 ((o.pos.rows - 1) * o.pos.YCharSize) = (o.pos.rows - 1) * 16 := by
    rw [frame.YCharSize, toInt32_fits (by omega) (by omega)]
  have after : cursorAfter o.pos.columns o.pos.rows o.here backspace =
      if 0 < o.pos.XPosition then (o.pos.XPosition - 1, o.pos.YPosition)
      else if o.pos.columns = 1 ∧ 0 < o.pos.YPosition then (0, o.pos.YPosition - 1)
      else (0, o.pos.YPosition) := rfl
  have home_iff : o.here = (0, 0) ↔ o.pos.XPosition = 0 ∧ o.pos.YPosition = 0 := Prod.mk_inj
  unfold Output.back
  simp only [fits, fits']
  rw [after, home_iff]
  by_cases inner : 0 < o.pos.XPosition
  · rw [if_neg (by omega), if_pos inner, ← wrapped_same (show o.pos.XPosition - 1 < o.pos.columns by omega) bottom]
    refine placed_went (toInt32_fits (by omega) (by omega)) ⟨fun _ both => by omega, fun _ => ?_⟩
    exact grid_inMemory frame (by omega) (by omega) top bottom
  · rw [if_pos (by omega), if_neg inner]
    by_cases first : o.pos.YPosition = 0
    · have place : (if o.pos.columns = 1 ∧ 0 < o.pos.YPosition then ((0 : Int), o.pos.YPosition - 1)
          else (0, o.pos.YPosition)) = wrapped o.pos.columns o.pos.rows ((o.pos.columns - 1) * 8)
            ((o.pos.rows - 1) * 16) := by
        rw [if_neg (fun both => by omega), first, back_home_wrapped (by omega) (by omega)]
      rw [if_pos (by omega), place, ← columns_fit, ← rows_fit]
      refine placed_went (by rw [rows_fit]; exact toInt32_fits (by omega) (by omega))
        ⟨fun inside => absurd inside (back_home_outside frame), fun away => absurd (show _ ∧ _ from ⟨by omega, first⟩) away⟩
    · have place : (if o.pos.columns = 1 ∧ 0 < o.pos.YPosition then ((0 : Int), o.pos.YPosition - 1)
          else (0, o.pos.YPosition)) = wrapped o.pos.columns o.pos.rows ((o.pos.columns - 1) * 8)
            (o.pos.YPosition - 1) := back_column_wrapped (by omega) (by omega) bottom
      rw [if_neg (by omega), place, ← columns_fit]
      refine placed_went (toInt32_fits (by omega) (by omega)) ⟨fun _ both => by omega, fun _ => ?_⟩
      exact back_column_inMemory frame (by omega) (by omega)

end rounds

section turns
variable {o o' : Output} {buf : Nat → UInt8}

theorem wrap_keeps : o.wrapLine.wrapScreen.count = o.count ∧ o.wrapLine.wrapScreen.line = o.line := by
  unfold Output.wrapScreen Output.wrapLine
  constructor <;> split <;> split <;> rfl

theorem Went.round {handled : Output} {at_ : Int × Int} {clean : Prop}
    (went : Went o handled.wrapLine.wrapScreen at_ clean) (here : o.handle buf = handled) :
    Went o (o.round buf) at_ clean ∧ (o.round buf).count = handled.count + 1 ∧
      (o.round buf).line = handled.line := by
  subst here
  exact ⟨⟨went.pos, went.cells⟩, congrArg (· + 1) wrap_keeps.1, wrap_keeps.2⟩

theorem round_character (frame : FrameBuffer o.pos) (idle : o.line = 0) (other : buf o.count ≠ tab) :
    Went o (o.round buf) (cursorAfter o.pos.columns o.pos.rows o.here (buf o.count))
      (¬ (buf o.count = backspace ∧ o.here = (0, 0))) ∧
      (o.round buf).count = o.count + 1 ∧ (o.round buf).line = o.line := by
  have start : ¬ 0 < o.line := by omega
  by_cases line : buf o.count = newline
  · have handled : o.handle buf = o.move 0 (toInt32 (o.pos.YPosition + 1)) := by
      rw [Output.handle, if_neg start, if_pos line]
    have clean : (¬ (buf o.count = backspace ∧ o.here = (0, 0))) = True :=
      eq_true fun both => by rw [line] at both; cases both.1
    have after : cursorAfter o.pos.columns o.pos.rows o.here (buf o.count) =
        wrapped o.pos.columns o.pos.rows 0 (o.pos.YPosition + 1) := if_pos line
    rw [after, clean]
    exact (newline_went frame).round handled
  by_cases erase : buf o.count = backspace
  · have handled : o.handle buf = o.back := by
      rw [Output.handle, if_neg start, if_neg line, if_pos erase]
    have clean : (¬ (buf o.count = backspace ∧ o.here = (0, 0))) = ¬ o.here = (0, 0) := by
      rw [erase, eq_self_iff_true, true_and]
    have kept : o.back.count = o.count ∧ o.back.line = o.line := by
      unfold Output.back
      dsimp only
      constructor <;> split <;> rfl
    rw [clean, erase]
    obtain ⟨went, count, line'⟩ := (back_went frame).round handled
    exact ⟨went, count.trans (congrArg (· + 1) kept.1), line'.trans kept.2⟩
  · have handled : o.handle buf = o.drawNext (buf o.count) := by
      rw [Output.handle, if_neg start, if_neg line, if_neg erase, if_neg other]
    have clean : (¬ (buf o.count = backspace ∧ o.here = (0, 0))) = True :=
      eq_true fun both => erase both.1
    have after : cursorAfter o.pos.columns o.pos.rows o.here (buf o.count) =
        wrapped o.pos.columns o.pos.rows (o.pos.XPosition + 1) o.pos.YPosition := by
      unfold cursorAfter
      rw [if_neg line, if_neg erase, if_neg other]
      rfl
    rw [after, clean]
    exact (drawNext_went frame).round handled

theorem Went.screen {at_ : Int × Int} {clean : Prop} (went : Went o o' at_ clean) :
    o'.pos.columns = o.pos.columns ∧ o'.pos.rows = o.pos.rows ∧ o'.here = at_ := by
  unfold Output.here
  rw [went.pos]
  exact ⟨rfl, rfl, rfl⟩

theorem Went.trans {at_ at' : Int × Int} {clean clean' : Prop} {o'' : Output} (first : Went o o' at_ clean)
    (second : Went o' o'' at' clean') : Went o o'' at' (clean ∧ clean') := by
  have same : ∀ c, InMemory o'.pos c ↔ InMemory o.pos c := fun c => by
    rw [first.pos]
    rfl
  refine ⟨?_, ?_⟩
  · rw [second.pos, first.pos]
  · have cells := second.cells
    simp only [same] at cells
    rw [cells, first.cells, and_assoc]

theorem round_inside (frame : FrameBuffer o.pos) (inside : 0 < o.line) (fits : toInt32 (o.line - 1) = o.line - 1)
    (later : 0 < o.count) :
    Went o (o.round buf) (wrapped o.pos.columns o.pos.rows (o.pos.XPosition + 1) o.pos.YPosition) True ∧
      (o.round buf).count = o.count ∧ (o.round buf).line = o.line - 1 := by
  have handled : o.handle buf =
      ({ o with count := o.count - 1, line := o.line - 1 } : Output).drawNext blank := by
    rw [Output.handle, if_pos inside, ← fits]
    rfl
  have drawn := @drawNext_went { o with count := o.count - 1, line := o.line - 1 } blank frame
  have went : Went o (({ o with count := o.count - 1, line := o.line - 1 } : Output).drawNext
      blank).wrapLine.wrapScreen
      (wrapped o.pos.columns o.pos.rows (o.pos.XPosition + 1) o.pos.YPosition) True :=
    ⟨drawn.pos, drawn.cells⟩
  obtain ⟨went, count, line⟩ := went.round handled
  exact ⟨went, count.trans (Nat.sub_add_cancel later), line⟩

theorem round_tab (frame : FrameBuffer o.pos) (idle : o.line = 0) (here : buf o.count = tab) :
    Went o (o.round buf) (wrapped o.pos.columns o.pos.rows (o.pos.XPosition + 1) o.pos.YPosition) True ∧
      (o.round buf).count = o.count + 1 ∧ (o.round buf).line = 8 - o.pos.XPosition % 8 - 1 := by
  have start : ¬ 0 < o.line := by omega
  have stop : (o.pos.XPosition + 8) / 8 * 8 - o.pos.XPosition = 8 - o.pos.XPosition % 8 := by omega
  have fits : toInt32 (8 - o.pos.XPosition % 8 - 1) = 8 - o.pos.XPosition % 8 - 1 :=
    toInt32_fits (by omega) (by omega)
  have handled : o.handle buf =
      ({ o with line := 8 - o.pos.XPosition % 8 - 1 } : Output).drawNext blank := by
    rw [Output.handle, if_neg start, here, if_neg (by decide), if_neg (by decide), if_pos rfl, stop, ← fits]
    rfl
  have drawn := @drawNext_went { o with line := 8 - o.pos.XPosition % 8 - 1 } blank frame
  have went : Went o (({ o with line := 8 - o.pos.XPosition % 8 - 1 } : Output).drawNext
      blank).wrapLine.wrapScreen
      (wrapped o.pos.columns o.pos.rows (o.pos.XPosition + 1) o.pos.YPosition) True :=
    ⟨drawn.pos, drawn.cells⟩
  exact went.round handled

theorem FrameBuffer.next {p : Position} (frame : FrameBuffer p) {x y : Int} (left : 0 ≤ x) (top : 0 ≤ y) :
    FrameBuffer { p with
      XPosition := (wrapped p.columns p.rows x y).1, YPosition := (wrapped p.columns p.rows x y).2 } := by
  have wide := frame.wide
  have lines := frame.lines
  have columns := frame.columns
  have rows := frame.rows
  have inside := @wrapped_inside p.columns p.rows x y (by omega) (by omega) left top
  exact frame.at inside.1 inside.2.1 inside.2.2.1 inside.2.2.2

end turns

end Printk

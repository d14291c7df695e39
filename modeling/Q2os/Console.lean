import Q2os.PrintNumber
import Q2os.Run

/- The output loop of color_printk: the cursor, and the cells that putchar draws. -/
namespace Printk
open Fat32 (toInt32)
open Run

structure Position where
  XResolution : Int
  YResolution : Int
  XPosition : Int
  YPosition : Int
  XCharSize : Int
  YCharSize : Int
deriving DecidableEq, Repr

def Position.columns (p : Position) : Int := p.XResolution.tdiv p.XCharSize
def Position.rows (p : Position) : Int := p.YResolution.tdiv p.YCharSize

structure Cell where
  x : Int
  y : Int
  font : UInt8
deriving DecidableEq, Repr

/- Where putchar stores pixel j of row i, counted in pixels from the start of the frame buffer. -/
def pixel (Xsize : Int) (c : Cell) (i j : Nat) : Int :=
  toInt32 (Xsize * toInt32 (c.y + i)) + c.x + j

structure Output where
  pos : Position
  count : Nat
  line : Int
  /-- The calls of putchar, the last one first. -/
  drawn : List Cell
deriving DecidableEq, Repr

def newline : UInt8 := 0x0a
def backspace : UInt8 := 0x08
def tab : UInt8 := 0x09

def Output.move (o : Output) (x y : Int) : Output :=
  { o with pos := { o.pos with XPosition := x, YPosition := y } }

def Output.draw (o : Output) (font : UInt8) : Output :=
  let cell := ⟨toInt32 (o.pos.XPosition * o.pos.XCharSize), toInt32 (o.pos.YPosition * o.pos.YCharSize), font⟩
  { o with drawn := cell :: o.drawn }

def Output.drawNext (o : Output) (font : UInt8) : Output :=
  (o.draw font).move (toInt32 (o.pos.XPosition + 1)) o.pos.YPosition

def Output.labelTab (o : Output) : Output := { o with line := toInt32 (o.line - 1) }.drawNext blank

def Output.back (o : Output) : Output :=
  let x := toInt32 (o.pos.XPosition - 1)
  if x < 0 then
    let y := toInt32 (o.pos.YPosition - 1)
    (o.move (toInt32 ((o.pos.columns - 1) * o.pos.XCharSize))
      (if y < 0 then toInt32 ((o.pos.rows - 1) * o.pos.YCharSize) else y)).draw blank
  else (o.move x o.pos.YPosition).draw blank

/- One round of the loop up to the two tests for a wrap. -/
def Output.handle (buf : Nat → UInt8) (o : Output) : Output :=
  if 0 < o.line then { o with count := o.count - 1 }.labelTab
  else if buf o.count = newline then o.move 0 (toInt32 (o.pos.YPosition + 1))
  else if buf o.count = backspace then o.back
  else if buf o.count = tab then
    -- The next multiple of 8 is found by clearing three bits.
    { o with line := (o.pos.XPosition + 8) / 8 * 8 - o.pos.XPosition }.labelTab
  else o.drawNext (buf o.count)

def Output.wrapLine (o : Output) : Output :=
  if o.pos.columns ≤ o.pos.XPosition then o.move 0 (toInt32 (o.pos.YPosition + 1)) else o

def Output.wrapScreen (o : Output) : Output :=
  if o.pos.rows ≤ o.pos.YPosition then o.move o.pos.XPosition 0 else o

def Output.round (buf : Nat → UInt8) (o : Output) : Output :=
  let o := (o.handle buf).wrapLine.wrapScreen
  { o with count := o.count + 1 }

def Output.GoesOn (i : Int) (o : Output) : Prop := o.count < i ∨ o.line ≠ 0

instance (i : Int) (o : Output) : Decidable (o.GoesOn i) := inferInstanceAs (Decidable (_ ∨ _))

def start (pos : Position) : Output := ⟨pos, 0, 0, []⟩

def Step (buf : Nat → UInt8) (i : Int) (o : Output) (_ : Unit) (o' : Output) : Prop :=
  o.GoesOn i ∧ o' = o.round buf

/- A screen of characters of 8 by 16 pixels with the cursor on it. -/
structure OnScreen (p : Position) : Prop where
  XCharSize : p.XCharSize = 8
  YCharSize : p.YCharSize = 16
  wide : 8 ≤ p.XResolution
  high : 16 ≤ p.YResolution
  XResolution : p.XResolution < 2 ^ 31
  YResolution : p.YResolution < 2 ^ 31
  left : 0 ≤ p.XPosition
  right : p.XPosition < p.XResolution / 8
  top : 0 ≤ p.YPosition
  bottom : p.YPosition < p.YResolution / 16

structure InFrame (p : Position) (c : Cell) : Prop where
  left : 0 ≤ c.x
  right : c.x + 8 ≤ p.XResolution
  top : 0 ≤ c.y
  bottom : c.y + 16 ≤ p.YResolution
  pixels : ∀ i < 16, ∀ j < 8, pixel p.XResolution c i j = p.XResolution * (c.y + i) + (c.x + j)

structure Shown (o : Output) : Prop where
  cursor : OnScreen o.pos
  cells : ∀ c ∈ o.drawn, InFrame o.pos c

def Output.rowDrawn (buf : Nat → UInt8) (o : Output) : Int :=
  if o.line ≤ 0 ∧ buf o.count = backspace ∧ o.pos.XPosition = 0 then o.pos.YPosition - 1 else o.pos.YPosition

/- No backspace is met in the first column (of a screen with a second one, or with a second row in
   the first row), and the pixels of a cell that is drawn are counted in an int. -/
structure Allowed (buf : Nat → UInt8) (o : Output) : Prop where
  backspace : o.line ≤ 0 → buf o.count = backspace → o.pos.XPosition = 0 →
    o.pos.columns = 1 ∧ (o.pos.YPosition = 0 → o.pos.rows = 1)
  counted : 0 < o.line ∨ buf o.count ≠ newline →
    o.pos.XResolution * (16 * o.rowDrawn buf + 15) < 2 ^ 31

section screen
variable {p : Position} {o : Output} {buf : Nat → UInt8} {font : UInt8}

theorem OnScreen.columns (screen : OnScreen p) : p.columns = p.XResolution / 8 := by
  have wide := screen.wide
  unfold Position.columns
  rw [screen.XCharSize, Int.tdiv_eq_ediv_of_nonneg (by omega)]

theorem OnScreen.rows (screen : OnScreen p) : p.rows = p.YResolution / 16 := by
  have high := screen.high
  unfold Position.rows
  rw [screen.YCharSize, Int.tdiv_eq_ediv_of_nonneg (by omega)]

theorem OnScreen.at (screen : OnScreen p) {x y : Int} (left : 0 ≤ x) (right : x < p.columns)
    (top : 0 ≤ y) (bottom : y < p.rows) :
    OnScreen { p with XPosition := x, YPosition := y } :=
  { screen with
    left := left
    right := screen.columns ▸ right
    top := top
    bottom := screen.rows ▸ bottom }

theorem cell_inFrame (screen : OnScreen p) {x y : Int} (left : 0 ≤ x) (right : x < p.columns)
    (top : 0 ≤ y) (bottom : y < p.rows) (counted : p.XResolution * (16 * y + 15) < 2 ^ 31) :
    InFrame p ⟨toInt32 (x * p.XCharSize), toInt32 (y * p.YCharSize), font⟩ := by
  have wide := screen.wide
  have high := screen.high
  have XResolution := screen.XResolution
  have YResolution := screen.YResolution
  have xs : toInt32 (x * p.XCharSize) = x * 8 := by
    rw [screen.XCharSize, toInt32_fits] <;>
      · rw [screen.columns] at right
        omega
  have ys : toInt32 (y * p.YCharSize) = y * 16 := by
    rw [screen.YCharSize, toInt32_fits] <;>
      · rw [screen.rows] at bottom
        omega
  rw [screen.columns] at right
  rw [screen.rows] at bottom
  rw [xs, ys]
  refine ⟨?_, ?_, ?_, ?_, fun i inside j inside' => ?_⟩
  · show 0 ≤ x * 8
    omega
  · show x * 8 + 8 ≤ _
    omega
  · show 0 ≤ y * 16
    omega
  · show y * 16 + 16 ≤ _
    omega
  · have row : toInt32 (y * 16 + i) = y * 16 + i := toInt32_fits (by omega) (by omega)
    have low : 0 ≤ p.XResolution * (y * 16 + i) := Int.mul_nonneg (by omega) (by omega)
    have up : p.XResolution * (y * 16 + i) ≤ p.XResolution * (16 * y + 15) :=
      Int.mul_le_mul_of_nonneg_left (by omega) (by omega)
    show toInt32 (p.XResolution * toInt32 (y * 16 + i)) + x * 8 + j = p.XResolution * (y * 16 + i) + (x * 8 + j)
    rw [row, toInt32_fits (by omega) (by omega)]
    omega

structure Unwrapped (o : Output) : Prop where
  screen : ∃ x y, OnScreen { o.pos with XPosition := x, YPosition := y }
  left : 0 ≤ o.pos.XPosition
  right : o.pos.XPosition ≤ o.pos.columns
  top : 0 ≤ o.pos.YPosition
  bottom : o.pos.YPosition < o.pos.rows ∨ o.pos.YPosition = o.pos.rows ∧ o.pos.XPosition < o.pos.columns
  cells : ∀ c ∈ o.drawn, InFrame o.pos c

theorem inFrame_move {c : Cell} {x y : Int} (inside : InFrame p c) :
    InFrame { p with XPosition := x, YPosition := y } c :=
  ⟨inside.left, inside.right, inside.top, inside.bottom, inside.pixels⟩

theorem wrap_shown (unwrapped : Unwrapped o) : Shown o.wrapLine.wrapScreen := by
  obtain ⟨⟨x₀, y₀, screen⟩, left, right, top, bottom, cells⟩ := unwrapped
  have columns : o.pos.columns = o.pos.XResolution / 8 := screen.columns
  have rows : o.pos.rows = o.pos.YResolution / 16 := screen.rows
  have wide : 8 ≤ o.pos.XResolution := screen.wide
  have high : 16 ≤ o.pos.YResolution := screen.high
  have YResolution : o.pos.YResolution < 2 ^ 31 := screen.YResolution
  have moved : ∀ x y, ∀ c ∈ o.drawn, InFrame { o.pos with XPosition := x, YPosition := y } c :=
    fun x y c member => inFrame_move (cells c member)
  have ranged : ∀ x y, 0 ≤ x → x < o.pos.columns → 0 ≤ y → y ≤ o.pos.rows →
      Shown (o.move x y).wrapScreen := by
    intro x y left' right' top' bottom'
    unfold Output.wrapScreen
    split
    · refine ⟨screen.at left' right' (Int.le_refl 0) ?_, moved x 0⟩
      show 0 < o.pos.rows
      omega
    · rename_i inside
      have inside' : ¬ o.pos.rows ≤ y := inside
      exact ⟨screen.at left' right' top' (show y < o.pos.rows by omega), moved x y⟩
  unfold Output.wrapLine
  by_cases far : o.pos.columns ≤ o.pos.XPosition
  · rw [if_pos far]
    have below : o.pos.YPosition < o.pos.rows := by
      rcases bottom with below | both
      · exact below
      · exact absurd both.2 (by omega)
    have fits : toInt32 (o.pos.YPosition + 1) = o.pos.YPosition + 1 := toInt32_fits (by omega) (by omega)
    rw [fits]
    exact ranged 0 (o.pos.YPosition + 1) (Int.le_refl 0) (by omega) (by omega) (by omega)
  · rw [if_neg far]
    exact ranged o.pos.XPosition o.pos.YPosition left (by omega) top (by omega)

theorem drawNext_unwrapped (shown : Shown o)
    (counted : o.pos.XResolution * (16 * o.pos.YPosition + 15) < 2 ^ 31) :
    Unwrapped (o.drawNext font) := by
  obtain ⟨cursor, cells⟩ := shown
  have left := cursor.left
  have right := cursor.right
  have columns := cursor.columns
  have XResolution := cursor.XResolution
  have bottom : o.pos.YPosition < o.pos.rows := cursor.rows ▸ cursor.bottom
  have fits : toInt32 (o.pos.XPosition + 1) = o.pos.XPosition + 1 := toInt32_fits (by omega) (by omega)
  have near : o.pos.XPosition < o.pos.columns := by omega
  refine ⟨⟨o.pos.XPosition, o.pos.YPosition, cursor⟩, ?_, ?_, cursor.top, Or.inl bottom, fun c member => ?_⟩
  · show 0 ≤ toInt32 (o.pos.XPosition + 1)
    omega
  · show toInt32 (o.pos.XPosition + 1) ≤ o.pos.columns
    omega
  · apply inFrame_move
    cases member with
    | head => exact cell_inFrame cursor left near cursor.top bottom counted
    | tail _ member => exact cells c member

theorem back_unwrapped (shown : Shown o) (idle : o.line ≤ 0) (here : buf o.count = backspace)
    (allowed : Allowed buf o) : Unwrapped o.back := by
  obtain ⟨cursor, cells⟩ := shown
  have left := cursor.left
  have right : o.pos.XPosition < o.pos.columns := cursor.columns ▸ cursor.right
  have top := cursor.top
  have bottom : o.pos.YPosition < o.pos.rows := cursor.rows ▸ cursor.bottom
  have columns := cursor.columns
  have rows := cursor.rows
  have XResolution := cursor.XResolution
  have YResolution := cursor.YResolution
  have counted := allowed.counted (Or.inr (by rw [here]; decide))
  have placed : ∀ x y, 0 ≤ x → x < o.pos.columns → 0 ≤ y → y < o.pos.rows →
      o.pos.XResolution * (16 * y + 15) < 2 ^ 31 → Unwrapped ((o.move x y).draw blank) := by
    intro x y left' right' top' bottom' counted'
    refine ⟨⟨_, _, cursor⟩, left', Int.le_of_lt right', top', Or.inl bottom', fun c member => ?_⟩
    apply inFrame_move (p := o.pos)
    cases member with
    | head => exact cell_inFrame cursor left' right' top' bottom' counted'
    | tail _ member => exact cells c member
  have fits : toInt32 (o.pos.XPosition - 1) = o.pos.XPosition - 1 := toInt32_fits (by omega) (by omega)
  have fits' : toInt32 (o.pos.YPosition - 1) = o.pos.YPosition - 1 := toInt32_fits (by omega) (by omega)
  unfold Output.rowDrawn at counted
  unfold Output.back
  simp only [fits, fits']
  by_cases first : o.pos.XPosition = 0
  · obtain ⟨one, lines⟩ := allowed.backspace idle here first
    rw [if_pos ⟨idle, here, first⟩] at counted
    have x₀ : toInt32 ((o.pos.columns - 1) * o.pos.XCharSize) = 0 := by
      rw [one, Int.sub_self, Int.zero_mul]
      rfl
    rw [if_pos (by omega), x₀]
    by_cases home : o.pos.YPosition = 0
    · have y₀ : toInt32 ((o.pos.rows - 1) * o.pos.YCharSize) = 0 := by
        rw [lines home, Int.sub_self, Int.zero_mul]
        rfl
      rw [if_pos (by omega), y₀]
      exact placed 0 0 (Int.le_refl 0) (by omega) (Int.le_refl 0) (by omega) (by omega)
    · rw [if_neg (by omega)]
      exact placed 0 _ (Int.le_refl 0) (by omega) (by omega) (by omega) counted
  · rw [if_neg (fun all => first all.2.2)] at counted
    rw [if_neg (by omega)]
    exact placed _ _ (by omega) (by omega) top bottom counted

theorem handle_unwrapped (shown : Shown o) (allowed : Allowed buf o) : Unwrapped (o.handle buf) := by
  have row : ¬ (o.line ≤ 0 ∧ buf o.count = backspace ∧ o.pos.XPosition = 0) →
      o.rowDrawn buf = o.pos.YPosition := fun other => if_neg other
  have counted := allowed.counted
  unfold Output.handle
  by_cases inside : 0 < o.line
  · rw [if_pos inside]
    rw [row (by omega)] at counted
    exact @drawNext_unwrapped { o with count := o.count - 1, line := toInt32 (o.line - 1) } blank
      ⟨shown.cursor, shown.cells⟩ (counted (Or.inl inside))
  · rw [if_neg inside]
    by_cases line : buf o.count = newline
    · rw [if_pos line]
      obtain ⟨cursor, cells⟩ := shown
      have bottom : o.pos.YPosition < o.pos.rows := cursor.rows ▸ cursor.bottom
      have rows := cursor.rows
      have top := cursor.top
      have YResolution := cursor.YResolution
      have left := cursor.left
      have right : o.pos.XPosition < o.pos.columns := cursor.columns ▸ cursor.right
      have fits : toInt32 (o.pos.YPosition + 1) = o.pos.YPosition + 1 := toInt32_fits (by omega) (by omega)
      rw [fits]
      refine ⟨⟨_, _, cursor⟩, Int.le_refl 0, ?_, ?_, ?_, fun c member => inFrame_move (cells c member)⟩
      · show 0 ≤ o.pos.columns
        omega
      · show 0 ≤ o.pos.YPosition + 1
        omega
      · show o.pos.YPosition + 1 < o.pos.rows ∨ o.pos.YPosition + 1 = o.pos.rows ∧ 0 < o.pos.columns
        omega
    · rw [if_neg line]
      by_cases erase : buf o.count = backspace
      · rw [if_pos erase]
        exact back_unwrapped shown (by omega) erase allowed
      · rw [if_neg erase]
        rw [row (fun all => erase all.2.1)] at counted
        split
        · exact @drawNext_unwrapped { o with line := _ } blank ⟨shown.cursor, shown.cells⟩
            (counted (Or.inr line))
        · exact drawNext_unwrapped shown (counted (Or.inr line))

theorem round_shown (shown : Shown o) (allowed : Allowed buf o) : Shown (o.round buf) :=
  have wrapped := wrap_shown (handle_unwrapped shown allowed)
  ⟨wrapped.cursor, wrapped.cells⟩

end screen

/-- The cursor and every cell stay on the screen in a run whose rounds are all allowed. -/
theorem output_shown {pos : Position} (screen : OnScreen pos) (buf : Nat → UInt8) (i : Int) {o : Output}
    {es : List Unit} (run : Steps (Guarded (fun o _ => Allowed buf o) (Step buf i)) (start pos) es o) :
    Shown o := by
  have begun : Shown (start pos) := ⟨screen, fun c member => (by cases member)⟩
  refine invariant_of_step ?_ run begun
  intro s e t shown step
  rw [step.1.2]
  exact round_shown shown step.2

def cleared : Position := ⟨1024, 768, 0, 0, 8, 16⟩

theorem cleared_onScreen : OnScreen cleared := by
  constructor <;> decide

def next (buf : Nat → UInt8) (i : Int) (o : Output) (_ : Unit) : Option Output :=
  if o.GoesOn i ∧ (buf o.count = backspace → o.pos.XPosition ≠ 0) ∧
      o.pos.XResolution * (16 * o.rowDrawn buf + 15) < 2 ^ 31 then some (o.round buf)
  else none

theorem next_step (buf : Nat → UInt8) (i : Int) (o : Output) (e : Unit) (o' : Output)
    (taken : next buf i o e = some o') : Guarded (fun o _ => Allowed buf o) (Step buf i) o e o' := by
  obtain ⟨⟨goes, inside, counted⟩, made⟩ := Option.ite_none_right_eq_some.mp taken
  cases made
  exact ⟨⟨goes, rfl⟩, fun _ erase first => absurd first (inside erase), fun _ => counted⟩

/- The last two cells of the screen, a tab from the first one on, a letter that is erased and another
   one, and a line feed. -/
def erasedLetter : List UInt8 := [0x61, 0x62, tab, 0x63, backspace, 0x64, newline]

def corner : Position := { cleared with XPosition := 126, YPosition := 47 }

theorem output_shown_letters : ∃ o, exec (next (erasedLetter.getD · 0) erasedLetter.length) (start corner)
      (List.replicate 14 ()) = some o ∧
    ¬ o.GoesOn erasedLetter.length ∧ o.drawn.length = 13 ∧ Shown o := by
  have ran : (exec (next (erasedLetter.getD · 0) erasedLetter.length) (start corner)
      (List.replicate 14 ())).map (fun o => (decide (o.GoesOn erasedLetter.length), o.drawn.length)) =
      some (false, 13) := by decide +kernel
  obtain ⟨o, reached, facts⟩ := Option.map_eq_some_iff.mp ran
  simp only [Prod.mk.injEq, decide_eq_false_iff_not] at facts
  have screen : OnScreen corner := by
    constructor <;> decide
  exact ⟨o, reached, facts.1, facts.2, output_shown screen _ _
    (steps_mono (next_step _ _) (steps_of_exec reached))⟩

/- A backspace goes to column 127 * 8 of row 47 * 16. -/
theorem backspace_shown_outside :
    OnScreen cleared ∧ Steps (Step (fun _ => backspace) 1) (start cleared) [()]
      ((start cleared).round fun _ => backspace) ∧
    ¬ Shown ((start cleared).round fun _ => backspace) := by
  refine ⟨cleared_onScreen, steps_single ⟨by decide, rfl⟩, fun shown => ?_⟩
  have drawn : ((start cleared).round fun _ => backspace).drawn = [⟨8128, 12032, blank⟩] := by decide
  have inside := shown.cells ⟨8128, 12032, blank⟩ (by rw [drawn]; exact List.mem_cons_self)
  have right : (8128 : Int) + 8 ≤ 1024 := inside.right
  exact absurd right (by decide)

end Printk

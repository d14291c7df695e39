import Q2os.FormatRuns
import Q2os.FrameBuffer

/- color_printk without arguments, as sys_putstring calls it with a string for the format. -/
namespace Printk
open ByteMemory
open Fat32 (toInt32)

def outputLoop (buf : Nat → UInt8) (i : Int) : Nat → Output → Option (List UInt8 × Output)
  | 0, _ => none
  | n + 1, o =>
    if o.GoesOn i then do
      let rest ← outputLoop buf i n (o.round buf)
      return (if 0 < o.line then rest.1 else buf o.count :: rest.1, rest.2)
    else some ([], o)

def printBuffer (text : List UInt8) (k : Nat) : UInt8 := text.getD k 0

def bufferSize : Nat := 4096

/- What became of a call: the scan, the characters put out, and the screen. -/
structure Printing where
  scan : Scan
  put : List UInt8
  output : Output

def colorPrintk (fmt : Nat → UInt8) (args : Nat → BitVec 64) (rounds : Nat) (memory : Memory)
    (pos : Position) : Option Printing := do
  let printed ← vsprintf fmt args rounds memory
  let shown ← outputLoop (printBuffer printed.2.str) printed.1 rounds (start pos)
  return ⟨printed.2, shown.1, shown.2⟩

/- The string is the format, and no argument is passed: the ones that va_arg finds are what lies in
   the registers and on the stack. -/
def sysPutstring (string : Nat → UInt8) (stray : Nat → BitVec 64) (rounds : Nat) (memory : Memory)
    (pos : Position) : Option Printing :=
  colorPrintk string stray rounds memory pos

/- No backspace is put out with the cursor in the first column of the first row. -/
def NeverHome (columns rows : Int) : Int × Int → List UInt8 → Prop
  | _, [] => True
  | at_, c :: text => ¬ (c = backspace ∧ at_ = (0, 0)) ∧
      NeverHome columns rows (cursorAfter columns rows at_ c) text

/- The characters of the string and no others are put out, and nothing but the string, the buffer,
   the cursor and the frame buffer is touched. -/
def Transparent (string : Nat → UInt8) (n : Nat) (stray : Nat → BitVec 64) (rounds : Nat)
    (memory : Memory) (pos : Position) : Prop :=
  ∃ p, sysPutstring string stray rounds memory pos = some p ∧ p.put = slice string 0 n ∧
    p.scan.taken = 0 ∧ p.scan.memory = memory ∧ p.scan.str.length + 1 ≤ bufferSize ∧
    ∀ c ∈ p.output.drawn, InMemory pos c

section loop
variable {o o' : Output} {buf : Nat → UInt8} {i : Int}

theorem inside_rounds (m : Nat) (small : m < 8) (frame : FrameBuffer o.pos) (line : o.line = m)
    (later : 0 < o.count) (r : Nat) :
    ∃ o', outputLoop buf i (m + r) o = outputLoop buf i r o' ∧
      Went o o' ((fun here : Int × Int => wrapped o.pos.columns o.pos.rows (here.1 + 1) here.2)^[m] o.here) True ∧
      o'.count = o.count ∧ o'.line = 0 := by
  induction m generalizing o with
  | zero =>
    rw [Nat.zero_add]
    exact ⟨o, rfl, ⟨rfl, fun cells => ⟨cells, trivial⟩, And.left⟩, rfl, line⟩
  | succ m ih =>
    have inside : 0 < o.line := by omega
    have goes : o.GoesOn i := Or.inr (by omega)
    obtain ⟨went, count, line'⟩ := @round_inside o buf frame inside (toInt32_fits (by omega) (by omega)) later
    have frame' : FrameBuffer (o.round buf).pos := by
      rw [went.pos]
      exact frame.next (Int.le_add_one frame.left) frame.top
    obtain ⟨o', ran, went', count', ended⟩ := ih (by omega) frame' (by omega) (by omega)
    refine ⟨o', ?_, ?_, count'.trans count, ended⟩
    · rw [show m + 1 + r = (m + r) + 1 by omega, outputLoop, if_pos goes, ran]
      simp only [if_pos inside]
      cases outputLoop buf i r o' <;> rfl
    · obtain ⟨columns, rows, here⟩ := went.screen
      rw [columns, rows, here] at went'
      rw [Function.iterate_succ_apply]
      have both := went.trans went'
      rw [true_and] at both
      exact both

theorem character_rounds (frame : FrameBuffer o.pos) (idle : o.line = 0) (more : (o.count : Int) < i)
    {rounds : Nat} (enough : 8 ≤ rounds) :
    ∃ o' r, rounds ≤ r + 8 ∧
      outputLoop buf i rounds o = (outputLoop buf i r o').map (fun rest => (buf o.count :: rest.1, rest.2)) ∧
      Went o o' (cursorAfter o.pos.columns o.pos.rows o.here (buf o.count))
        (¬ (buf o.count = backspace ∧ o.here = (0, 0))) ∧
      o'.count = o.count + 1 ∧ o'.line = 0 := by
  have goes : o.GoesOn i := Or.inl more
  have start : ¬ 0 < o.line := by omega
  obtain ⟨k, rfl⟩ := Nat.exists_eq_add_of_le' (show 1 ≤ rounds by omega)
  have first : outputLoop buf i (k + 1) o =
      (outputLoop buf i k (o.round buf)).map (fun rest => (buf o.count :: rest.1, rest.2)) := by
    rw [outputLoop, if_pos goes]
    simp only [if_neg start]
    cases outputLoop buf i k (o.round buf) <;> rfl
  by_cases here : buf o.count = tab
  · obtain ⟨went, count, line⟩ := @round_tab o buf frame idle here
    have frame' : FrameBuffer (o.round buf).pos := by
      rw [went.pos]
      exact frame.next (Int.le_add_one frame.left) frame.top
    have left := frame.left
    obtain ⟨o', ran, went', count', line'⟩ := @inside_rounds (o.round buf) buf i
      (8 - o.pos.XPosition % 8 - 1).toNat (by omega) frame' (by omega) (by omega)
      (k - (8 - o.pos.XPosition % 8 - 1).toNat)
    refine ⟨o', k - (8 - o.pos.XPosition % 8 - 1).toNat, by omega, ?_, ?_, count'.trans count, line'⟩
    · rw [first, ← ran]
      congr 2
      omega
    · obtain ⟨columns, rows, place⟩ := went.screen
      have both := went.trans went'
      have clean : (¬ (buf o.count = backspace ∧ o.here = (0, 0))) = (True ∧ True) :=
        propext ⟨fun _ => ⟨trivial, trivial⟩, fun _ both => by rw [here] at both; cases both.1⟩
      have stops : (8 - o.here.1 % 8).toNat = (8 - o.pos.XPosition % 8 - 1).toNat + 1 := by
        show (8 - o.pos.XPosition % 8).toNat = _
        omega
      have after : cursorAfter o.pos.columns o.pos.rows o.here (buf o.count) =
          (fun here : Int × Int => wrapped o.pos.columns o.pos.rows (here.1 + 1) here.2)^[
            (8 - o.pos.XPosition % 8 - 1).toNat]
              (wrapped o.pos.columns o.pos.rows (o.pos.XPosition + 1) o.pos.YPosition) := by
        unfold cursorAfter
        rw [here, if_neg (by decide), if_neg (by decide), if_pos rfl, stops, Function.iterate_succ_apply]
        rfl
      rw [columns, rows, place] at both
      rw [clean, after]
      exact both
  · obtain ⟨went, count, line⟩ := @round_character o buf frame idle here
    exact ⟨o.round buf, k, by omega, first, went, count, line.trans idle⟩

end loop

section texts
variable {o : Output} {buf : Nat → UInt8} {i : Int} {p : Position}

theorem iterate_inside {columns rows : Int} (wide : 0 < columns) (high : 0 < rows) (m : Nat)
    {at_ : Int × Int} (inside : (0 ≤ at_.1 ∧ at_.1 < columns) ∧ 0 ≤ at_.2 ∧ at_.2 < rows) :
    let last := (fun here : Int × Int => wrapped columns rows (here.1 + 1) here.2)^[m] at_
    (0 ≤ last.1 ∧ last.1 < columns) ∧ 0 ≤ last.2 ∧ last.2 < rows := by
  induction m generalizing at_ with
  | zero => exact inside
  | succ m ih =>
    have next := @wrapped_inside columns rows (at_.1 + 1) at_.2 wide high (by omega) (by omega)
    exact ih ⟨⟨next.1, next.2.1⟩, next.2.2⟩

theorem cursorAfter_inside {columns rows : Int} (wide : 0 < columns) (high : 0 < rows) {at_ : Int × Int}
    (inside : (0 ≤ at_.1 ∧ at_.1 < columns) ∧ 0 ≤ at_.2 ∧ at_.2 < rows) (c : UInt8) :
    (0 ≤ (cursorAfter columns rows at_ c).1 ∧ (cursorAfter columns rows at_ c).1 < columns) ∧
      0 ≤ (cursorAfter columns rows at_ c).2 ∧ (cursorAfter columns rows at_ c).2 < rows := by
  obtain ⟨⟨left, right⟩, top, bottom⟩ := inside
  unfold cursorAfter
  by_cases line : c = newline
  · have next := @wrapped_inside columns rows 0 (at_.2 + 1) wide high (Int.le_refl 0) (by omega)
    rw [if_pos line]
    exact ⟨⟨next.1, next.2.1⟩, next.2.2⟩
  rw [if_neg line]
  by_cases erase : c = backspace
  · rw [if_pos erase]
    by_cases inner : 0 < at_.1
    · rw [if_pos inner]
      exact ⟨⟨by show 0 ≤ at_.1 - 1; omega, by show at_.1 - 1 < columns; omega⟩, top, bottom⟩
    · rw [if_neg inner]
      by_cases up : columns = 1 ∧ 0 < at_.2
      · rw [if_pos up]
        exact ⟨⟨Int.le_refl 0, wide⟩, by show 0 ≤ at_.2 - 1; omega, by show at_.2 - 1 < rows; omega⟩
      · rw [if_neg up]
        exact ⟨⟨Int.le_refl 0, wide⟩, top, bottom⟩
  rw [if_neg erase]
  by_cases stop : c = tab
  · rw [if_pos stop]
    exact iterate_inside wide high _ ⟨⟨left, right⟩, top, bottom⟩
  · have next := @wrapped_inside columns rows (at_.1 + 1) at_.2 wide high (by omega) top
    rw [if_neg stop]
    exact ⟨⟨next.1, next.2.1⟩, next.2.2⟩

theorem FrameBuffer.after (frame : FrameBuffer p) (c : UInt8) :
    FrameBuffer { p with
      XPosition := (cursorAfter p.columns p.rows (p.XPosition, p.YPosition) c).1
      YPosition := (cursorAfter p.columns p.rows (p.XPosition, p.YPosition) c).2 } := by
  have wide := frame.wide
  have lines := frame.lines
  have columns := frame.columns
  have rows := frame.rows
  have inside := @cursorAfter_inside p.columns p.rows (by omega) (by omega) (p.XPosition, p.YPosition)
    ⟨⟨frame.left, columns ▸ frame.right⟩, frame.top, rows ▸ frame.bottom⟩ c
  exact frame.at inside.1.1 inside.1.2 inside.2.1 inside.2.2

/-- The output loop takes a text character by character, and draws in the frame buffer exactly if
    no backspace is met in the first cell. -/
theorem text_rounds (text : List UInt8) (frame : FrameBuffer o.pos) (idle : o.line = 0)
    (holds : ∀ j c, text[j]? = some c → buf (o.count + j) = c) (last : i = (o.count + text.length : Nat))
    {rounds : Nat} (enough : 8 * text.length < rounds) :
    ∃ o', outputLoop buf i rounds o = some (text, o') ∧
      ((∀ c ∈ o'.drawn, InMemory o.pos c) ↔
        (∀ c ∈ o.drawn, InMemory o.pos c) ∧ NeverHome o.pos.columns o.pos.rows o.here text) := by
  induction text generalizing o rounds with
  | nil =>
    have stop : ¬ o.GoesOn i := by
      rintro (less | more)
      · rw [last] at less
        exact absurd less (by simp)
      · exact more idle
    obtain ⟨k, rfl⟩ := Nat.exists_eq_add_of_le' (show 1 ≤ rounds by omega)
    rw [outputLoop, if_neg stop]
    exact ⟨o, rfl, fun cells => ⟨cells, trivial⟩, And.left⟩
  | cons c text ih =>
    rw [List.length_cons] at enough last
    have first : buf o.count = c := holds 0 c rfl
    obtain ⟨o₁, r, left, ran, went, count, line⟩ :=
      @character_rounds o buf i frame idle (by omega) rounds (by omega)
    rw [first] at ran went
    have frame₁ : FrameBuffer o₁.pos := by
      rw [went.pos]
      exact frame.after c
    have rest : ∀ j d, text[j]? = some d → buf (o₁.count + j) = d := by
      intro j d member
      rw [count, Nat.add_assoc, Nat.add_comm 1 j]
      exact holds (j + 1) d member
    obtain ⟨o', ran', cells'⟩ := @ih o₁ frame₁ line rest (by omega) r (by omega)
    obtain ⟨columns, rows, here⟩ := went.screen
    have same : ∀ c, InMemory o₁.pos c ↔ InMemory o.pos c := fun c => by
      rw [went.pos]
      rfl
    refine ⟨o', ?_, ?_⟩
    · rw [ran, ran']
      rfl
    · simp only [same] at cells'
      rw [cells', went.cells, columns, rows, here, NeverHome, and_assoc]

end texts

section transparent
variable {string : Nat → UInt8} {n rounds : Nat} {stray : Nat → BitVec 64} {memory : Memory} {pos : Position}

theorem colorPrintk_short {s : Scan} (frame : FrameBuffer pos)
    (printed : vsprintf string stray rounds memory = some (toInt32 s.str.length, s))
    (short : s.str.length + 1 ≤ bufferSize) (enough : 8 * bufferSize ≤ rounds) :
    ∃ o, sysPutstring string stray rounds memory pos = some ⟨s, s.str, o⟩ ∧
      ((∀ c ∈ o.drawn, InMemory pos c) ↔
        NeverHome pos.columns pos.rows (pos.XPosition, pos.YPosition) s.str) := by
  unfold bufferSize at short enough
  have fits : toInt32 s.str.length = (s.str.length : Nat) := toInt32_fits (by omega) (by omega)
  obtain ⟨o, ran, cells⟩ := @text_rounds (start pos) (printBuffer s.str) (toInt32 s.str.length) s.str frame rfl
    (fun j c member => by
      show s.str.getD (0 + j) 0 = c
      rw [Nat.zero_add, List.getD_eq_getElem?_getD, member]
      rfl) (by rw [fits]; exact congrArg Nat.cast (Nat.zero_add _).symm) rounds (by omega)
  have cells' : (∀ c ∈ o.drawn, InMemory pos c) ↔ (∀ c ∈ ([] : List Cell), InMemory pos c) ∧
      NeverHome pos.columns pos.rows (pos.XPosition, pos.YPosition) s.str := cells
  have none_ : ∀ c ∈ ([] : List Cell), InMemory pos c := fun c member => by cases member
  refine ⟨o, ?_, cells'.trans (and_iff_right none_)⟩
  unfold sysPutstring colorPrintk
  rw [printed, Option.bind_eq_bind, Option.bind_some, ran]
  rfl

theorem transparent_iff (terminated : Terminated string n) (frame : FrameBuffer pos)
    (enough : n < rounds) (enough' : 8 * bufferSize ≤ rounds) :
    Transparent string n stray rounds memory pos ↔
      InertFrom string n 0 ∧ n + 1 ≤ bufferSize ∧
        NeverHome pos.columns pos.rows (pos.XPosition, pos.YPosition) (slice string 0 n) := by
  obtain ⟨s, ran, finished⟩ := vsprintf_finished terminated stray memory enough
  constructor
  · intro transparent
    obtain ⟨p, called, put, fetched, _, short, cells⟩ := transparent
    have scan : p.scan = s := by
      obtain ⟨_, printed, rest⟩ := Option.bind_eq_some_iff.mp called
      rw [ran] at printed
      obtain ⟨_, _, same⟩ := Option.bind_eq_some_iff.mp rest
      rw [← Option.some.inj printed] at same
      rw [← Option.some.inj same]
    rw [scan] at fetched short
    obtain ⟨_, w, str, _, long, exact_⟩ := finished.idle fetched
    obtain ⟨o, called', home⟩ := colorPrintk_short frame ran short enough'
    rw [called'] at called
    obtain rfl := Option.some.inj called
    have put' : s.str = slice string 0 n := put
    have length : w.length = n := by
      rw [← slice_length string 0 n, ← put', str]
      rfl
    refine ⟨long length, ?_, ?_⟩
    · rw [put', slice_length] at short
      exact short
    · rw [← put']
      exact home.mp cells
  · intro all
    obtain ⟨inert, short, never⟩ := all
    have fetched : s.taken = 0 := finished.plain inert
    obtain ⟨kept, w, str, _, _, exact_⟩ := finished.idle fetched
    have whole : s.str = slice string 0 n := by
      rw [str, exact_ inert]
      rfl
    have short' : s.str.length + 1 ≤ bufferSize := by
      rw [whole, slice_length]
      exact short
    obtain ⟨o, called, home⟩ := colorPrintk_short frame ran short' enough'
    rw [← whole] at never
    exact ⟨_, called, whole, fetched, kept, short', home.mpr never⟩

end transparent

/-- A string is put out as it stands if it has no directives, fits in the buffer and takes no
    backspace to the first cell, and only then. -/
theorem putstring_transparent_iff {string : Nat → UInt8} {n : Nat} (terminated : Terminated string n)
    (stray : Nat → BitVec 64) (memory : Memory) {pos : Position} (frame : FrameBuffer pos) {rounds : Nat}
    (enough : n < rounds) (enough' : 8 * bufferSize ≤ rounds) :
    Transparent string n stray rounds memory pos ↔
      InertFrom string n 0 ∧ n + 1 ≤ bufferSize ∧
        NeverHome pos.columns pos.rows (pos.XPosition, pos.YPosition) (slice string 0 n) :=
  transparent_iff terminated frame enough enough'

theorem cleared_frame : FrameBuffer cleared :=
  { cleared_onScreen with
    pixels := by decide
    lines := by decide }

def percentSign (i : Nat) : UInt8 := [0x35, 0x30, 0x25, 0x21, 0x0a, 0x08].getD i 0

theorem putstring_percentSign :
    Transparent percentSign 6 (fun _ => 0) (8 * bufferSize) (fun _ => 0) cleared ↔
      InertFrom percentSign 6 0 ∧ 6 + 1 ≤ bufferSize ∧
        NeverHome cleared.columns cleared.rows (cleared.XPosition, cleared.YPosition) (slice percentSign 0 6) :=
  putstring_transparent_iff ⟨rfl, by decide⟩ _ _ cleared_frame (by decide) (Nat.le_refl _)

/- %d prints a number that nobody passed. -/
def numberDirective (i : Nat) : UInt8 := [0x25, 0x64].getD i 0

theorem putstring_directive :
    Terminated numberDirective 2 ∧
      ¬ Transparent numberDirective 2 (fun _ => 0) (8 * bufferSize) (fun _ => 0) cleared := by
  have terminated : Terminated numberDirective 2 := ⟨rfl, by decide⟩
  refine ⟨terminated, fun transparent => ?_⟩
  have inert := ((transparent_iff terminated cleared_frame (by decide) (Nat.le_refl _)).mp transparent).1
  exact absurd inert (by decide)

end Printk

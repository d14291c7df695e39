import Q2os.CommandLine
import Q2os.ShellKeyboard

/- The line that the shell reads: the codes of keys pressed and released become characters of a
   buffer, up to Enter, and the buffer becomes words. -/
namespace TypedLine
open ShellKeyboard CommandLine StateRuns
open PathWalk (CString)
open StringCopy (chars)

structure Typed where
  buf : Nat → UInt8
  count : Nat
  stored : List Nat

def cleared : Typed := ⟨fun _ => 0, 0, []⟩

def Typed.put (t : Typed) (key : UInt8) : Typed :=
  ⟨Function.update t.buf t.count key, t.count + 1, t.stored ++ [t.count]⟩

/- The loop of main that fills buf: none when no code is left. -/
def readLine : Nat → Modifiers → Typed → Reading (Typed × Modifiers)
  | 0, _, _ => fun _ => none
  | rounds + 1, m, t => do
    let key ← analysisKeycode m
    if key.1 = 0x0a then return (t, key.2)
    else if key.1 ≠ 0 then readLine rounds key.2 (t.put key.1)
    else readLine rounds key.2 t

def shifted (m : Modifiers) (s : Bool × Bool) : Modifiers :=
  { m with shift_l := s.1, shift_r := s.2 }

def printed (s : Bool × Bool) (code : UInt8) : UInt8 :=
  let row := keycodeMapNormal.getD code.toNat (0, 0)
  if s.1 || s.2 then row.2 else row.1

def Key (code : UInt8) : Prop :=
  code < 0x58 ∧ code ≠ 0x2a ∧ code ≠ 0x36 ∧ code ≠ 0x1d ∧ code ≠ 0x38

instance (code : UInt8) : Decidable (Key code) := inferInstanceAs (Decidable (_ ∧ _))

/- Codes that type a text. A key may be released at any time, and shift as well. -/
inductive Types : Bool × Bool → List UInt8 → CString → Bool × Bool → Prop where
  | done (s : Bool × Bool) : Types s [] [] s
  | press {s t : Bool × Bool} {codes : List UInt8} {text : CString} {code : UInt8}
      {c : { c : UInt8 // c ≠ 0 }} (key : Key code) (there : printed s code = c.1)
      (more : c.1 ≠ 0x0a) : Types s codes text t → Types s (code :: codes) (c :: text) t
  | release {s t : Bool × Bool} {codes : List UInt8} {text : CString} {code : UInt8}
      (key : Key code) : Types s codes text t → Types s ((code ||| 0x80) :: codes) text t
  | left {s t : Bool × Bool} {codes : List UInt8} {text : CString} (down : Bool) :
      Types (down, s.2) codes text t → Types s ((if down then 0x2a else 0xaa) :: codes) text t
  | right {s t : Bool × Bool} {codes : List UInt8} {text : CString} (down : Bool) :
      Types (s.1, down) codes text t → Types s ((if down then 0x36 else 0xb6) :: codes) text t

def keys : List UInt8 := ((List.range 0x58).map UInt8.ofNat).filter fun code => Key code

def stroke (c : UInt8) : List UInt8 :=
  match keys.find? fun code => printed (false, false) code = c with
  | some code => [code, code ||| 0x80]
  | none =>
    match keys.find? fun code => printed (true, false) code = c with
    | some code => [0x2a, code, code ||| 0x80, 0xaa]
    | none => []

def strokes (text : CString) : List UInt8 := text.flatMap fun c => stroke c.1

def Printable (c : UInt8) : Prop := 0x20 ≤ c ∧ c ≤ 0x7e

def enter : UInt8 := 0x1c

section reading
variable {m : Modifiers} {s t : Bool × Bool} {code : UInt8} {codes rest : List UInt8} {text : CString}

theorem key_bits (key : Key code) : (code &&& 0x80 = 0 ∧ code &&& 0x7f = code) ∧
    ((code ||| 0x80) &&& 0x80 ≠ 0 ∧ (code ||| 0x80) &&& 0x7f = code) ∧
    (code ≠ 0xe0 ∧ code ≠ 0xe1) ∧ code ||| 0x80 ≠ 0xe0 ∧ code ||| 0x80 ≠ 0xe1 := by
  have all : ∀ i < 256, let code := UInt8.ofNat i
      Key code → (code &&& 0x80 = 0 ∧ code &&& 0x7f = code) ∧
        ((code ||| 0x80) &&& 0x80 ≠ 0 ∧ (code ||| 0x80) &&& 0x7f = code) ∧
        (code ≠ 0xe0 ∧ code ≠ 0xe1) ∧ code ||| 0x80 ≠ 0xe0 ∧ code ||| 0x80 ≠ 0xe1 := by
    decide +kernel
  have here := all code.toNat code.toNat_lt
  rw [UInt8.ofNat_toNat] at here
  exact here key

theorem call_press (key : Key code) : analysisKeycode (shifted m s) (oneByOne (code :: codes)) =
    some ((printed s code, shifted m s), oneByOne codes) := by
  obtain ⟨⟨make, low⟩, -, single, -⟩ := key_bits key
  obtain ⟨-, shift_l, shift_r, ctrl, alt⟩ := key
  rw [call_plain single]
  simp [plainCode, make, low, shift_l, shift_r, ctrl, alt, printed, shifted]

theorem call_release (key : Key code) :
    analysisKeycode (shifted m s) (oneByOne ((code ||| 0x80) :: codes)) =
      some ((0, shifted m s), oneByOne codes) := by
  obtain ⟨-, ⟨make, low⟩, -, single⟩ := key_bits key
  obtain ⟨-, shift_l, shift_r, ctrl, alt⟩ := key
  rw [call_plain single]
  simp [plainCode, make, low, shift_l, shift_r, ctrl, alt]

theorem call_left (down : Bool) :
    analysisKeycode (shifted m s) (oneByOne ((if down then 0x2a else 0xaa) :: codes)) =
      some ((0, shifted m (down, s.2)), oneByOne codes) := by
  cases down <;> exact (call_plain (by decide)).trans rfl

theorem call_right (down : Bool) :
    analysisKeycode (shifted m s) (oneByOne ((if down then 0x36 else 0xb6) :: codes)) =
      some ((0, shifted m (s.1, down)), oneByOne codes) := by
  cases down <;> exact (call_plain (by decide)).trans rfl

theorem call_enter : analysisKeycode (shifted m (false, false)) (oneByOne (enter :: rest)) =
    some ((0x0a, shifted m (false, false)), oneByOne rest) := by
  rw [call_plain (by decide)]
  rfl

def Typed.puts (typed : Typed) (text : CString) : Typed := text.foldl (fun typed c => typed.put c.1) typed

theorem readLine_key {rounds : Nat} {typed : Typed} {key : UInt8} {m' : Modifiers} {input left : Input}
    (called : analysisKeycode m input = some ((key, m'), left)) :
    readLine (rounds + 1) m typed input = if key = 0x0a then some ((typed, m'), left)
      else if key ≠ 0 then readLine rounds m' (typed.put key) left
      else readLine rounds m' typed left := by
  rw [readLine, bind_run, called]
  simp only [Option.bind_some]
  split
  · rfl
  · split <;> rfl

theorem readLine_types (types : Types s codes text t) {rounds : Nat} {typed : Typed} :
    readLine (codes.length + rounds) (shifted m s) typed (oneByOne (codes ++ rest)) =
      readLine rounds (shifted m t) (typed.puts text) (oneByOne rest) := by
  induction types generalizing typed with
  | done s => simp [Typed.puts]
  | press key there more _ ih =>
    rename_i c _
    rw [List.length_cons, Nat.add_right_comm, List.cons_append, readLine_key (call_press key),
      there, if_neg more, if_pos c.2, ih]
    rfl
  | release key _ ih =>
    rw [List.length_cons, Nat.add_right_comm, List.cons_append, readLine_key (call_release key)]
    exact ih
  | left down _ ih =>
    rw [List.length_cons, Nat.add_right_comm, List.cons_append, readLine_key (call_left down)]
    exact ih
  | right down _ ih =>
    rw [List.length_cons, Nat.add_right_comm, List.cons_append, readLine_key (call_right down)]
    exact ih

theorem puts_snoc (typed : Typed) (text : CString) (c : { c : UInt8 // c ≠ 0 }) :
    typed.puts (text ++ [c]) = (typed.puts text).put c.1 := by
  simp [Typed.puts, List.foldl_append]

theorem puts_cleared (text : CString) :
    cleared.puts text = ⟨chars text, text.length, List.range text.length⟩ := by
  induction text using List.reverseRecOn with
  | nil => rfl
  | append_singleton text c ih =>
    have buf : Function.update (chars text) text.length c.1 = chars (text ++ [c]) := by
      funext i
      simp only [Function.update_apply, chars, List.length_append, List.length_singleton]
      by_cases last : i = text.length
      · simp [last]
      · by_cases inside : i < text.length
        · simp [last, inside, Nat.lt_succ_of_lt inside, List.getElem_append_left inside]
        · have beyond : ¬ i < text.length + 1 := by omega
          simp [last, inside, beyond]
    rw [puts_snoc, ih]
    simp [Typed.put, buf, List.range_succ]

end reading

section strokes
variable {s t : Bool × Bool} {codes : List UInt8} {text : CString}

theorem keys_key {code : UInt8} (member : code ∈ keys) : Key code := by
  simpa using (List.mem_filter.mp member).2

theorem printable_key : ∀ i < 95, keys.any (fun code => printed (false, false) code =
    UInt8.ofNat (0x20 + i) || printed (true, false) code = UInt8.ofNat (0x20 + i)) = true := by
  decide +kernel

theorem stroke_types {c : { c : UInt8 // c ≠ 0 }} (printable : Printable c.1)
    (types : Types (false, false) codes text t) :
    Types (false, false) (stroke c.1 ++ codes) (c :: text) t := by
  have more : c.1 ≠ 0x0a := by
    intro same
    rw [same] at printable
    exact absurd printable.1 (by decide)
  unfold stroke
  split
  · rename_i code found
    have key := keys_key (List.mem_of_find?_eq_some found)
    exact .press key (by simpa using List.find?_some found) more (.release key types)
  · rename_i below
    split
    · rename_i code found
      have key := keys_key (List.mem_of_find?_eq_some found)
      exact .left true (.press key (by simpa using List.find?_some found) more
        (.release key (.left false types)))
    · rename_i above
      have low : 0x20 ≤ c.1.toNat := UInt8.le_iff_toNat_le.mp printable.1
      have high : c.1.toNat ≤ 0x7e := UInt8.le_iff_toNat_le.mp printable.2
      have place : UInt8.ofNat (0x20 + (c.1.toNat - 0x20)) = c.1 := by
        rw [Nat.add_sub_cancel' low, UInt8.ofNat_toNat]
      obtain ⟨code, member, either⟩ :=
        List.any_eq_true.mp (printable_key (c.1.toNat - 0x20) (by omega))
      rw [place, Bool.or_eq_true] at either
      rcases either with here | here
      · exact absurd here (List.find?_eq_none.mp below code member)
      · exact absurd here (List.find?_eq_none.mp above code member)

theorem strokes_type (printable : ∀ c ∈ text, Printable c.1) :
    Types (false, false) (strokes text) text (false, false) := by
  induction text with
  | nil => exact .done _
  | cons c text ih =>
    have rest := ih fun d member => printable d (List.mem_cons_of_mem c member)
    simpa [strokes] using stroke_types (printable c List.mem_cons_self) rest

end strokes

end TypedLine

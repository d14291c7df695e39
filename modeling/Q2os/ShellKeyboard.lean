import Q2os.Run

/- The keyboard decoder of the shell, and the sequences of scan codes that a keyboard sends. -/
namespace ShellKeyboard
open Run

structure Modifiers where
  shift_l : Bool
  shift_r : Bool
  ctrl_l : Bool
  ctrl_r : Bool
  alt_l : Bool
  alt_r : Bool
deriving DecidableEq, Repr

def released : Modifiers := ⟨false, false, false, false, false, false⟩

def keycodeMapNormal : List (UInt8 × UInt8) :=
  [(0x00, 0x00), (0x00, 0x00), (0x31, 0x21), (0x32, 0x40), (0x33, 0x23), (0x34, 0x24), (0x35, 0x25), (0x36, 0x5e),
    (0x37, 0x26), (0x38, 0x2a), (0x39, 0x28), (0x30, 0x29), (0x2d, 0x5f), (0x3d, 0x2b), (0x08, 0x00), (0x09, 0x00),
    (0x71, 0x51), (0x77, 0x57), (0x65, 0x45), (0x72, 0x52), (0x74, 0x54), (0x79, 0x59), (0x75, 0x55), (0x69, 0x49),
    (0x6f, 0x4f), (0x70, 0x50), (0x5b, 0x7b), (0x5d, 0x7d), (0x0a, 0x00), (0x1d, 0x1d), (0x61, 0x41), (0x73, 0x53),
    (0x64, 0x44), (0x66, 0x46), (0x67, 0x47), (0x68, 0x48), (0x6a, 0x4a), (0x6b, 0x4b), (0x6c, 0x4c), (0x3b, 0x3a),
    (0x27, 0x22), (0x60, 0x7e), (0x2a, 0x2a), (0x5c, 0x7c), (0x7a, 0x5a), (0x78, 0x58), (0x63, 0x43), (0x76, 0x56),
    (0x62, 0x42), (0x6e, 0x4e), (0x6d, 0x4d), (0x2c, 0x3c), (0x2e, 0x3e), (0x2f, 0x3f), (0x36, 0x36), (0x2a, 0x2a),
    (0x38, 0x38), (0x20, 0x20), (0x00, 0x00), (0x00, 0x00), (0x00, 0x00), (0x00, 0x00), (0x00, 0x00), (0x00, 0x00),
    (0x00, 0x00), (0x00, 0x00), (0x00, 0x00), (0x00, 0x00), (0x00, 0x00), (0x00, 0x00), (0x00, 0x00), (0x37, 0x00),
    (0x38, 0x00), (0x39, 0x00), (0x2d, 0x00), (0x34, 0x00), (0x35, 0x00), (0x36, 0x00), (0x2b, 0x00), (0x31, 0x00),
    (0x32, 0x00), (0x33, 0x00), (0x30, 0x00), (0x2e, 0x00)]

def pausebreakScode : List UInt8 := [0xe1, 0x1d, 0x45, 0xe1, 0x9d, 0xc5]
def pausebreak : Nat := 1
def printscreen : Nat := 2
def otherkey : Nat := 4

/- The scan codes that wait in the keyboard's buffer, those that come before each of the reads to
   come, and what the reads so far have written behind the byte they were asked for. -/
structure Input where
  waiting : List UInt8
  later : List (List UInt8)
  behind : List UInt8

/- system_call gives every function of its table this as the third argument. -/
def thirdArgument : Nat := 0x10

abbrev Reading := StateT Input Option

/- read(fd,&ret,1), which comes to sys_read with a count of 0x10. It waits when there is no code; of
   the codes that wait the first is stored to ret and the others behind it. -/
def getScancode : Reading UInt8 := fun input =>
  match input.waiting ++ input.later.headD [] with
  | [] => none
  | code :: rest => some (code, {
      waiting := rest.drop (thirdArgument - 1)
      later := input.later.tail
      behind := input.behind ++ rest.take (thirdArgument - 1) })

/- Each code comes when the one before it has been read. -/
def oneByOne (codes : List UInt8) : Input := ⟨[], codes.map fun code => [code], []⟩

def matchPause : List UInt8 → Reading Bool
  | [] => return true
  | code :: rest => do
    if (← getScancode) ≠ code then return false
    else matchPause rest

def screenCode (last : UInt8) : Reading Nat := do
  if (← getScancode) = 0xe0 then
    if (← getScancode) = last then return printscreen
    else return 0
  else return 0

def prefixedCode (m : Modifiers) : Reading (Nat × UInt8 × Modifiers) := do
  let x ← getScancode
  if x = 0x2a then
    let key ← screenCode 0x37
    return (key, x, m)
  else if x = 0xb7 then
    let key ← screenCode 0xaa
    return (key, x, m)
  else if x = 0x1d then return (otherkey, x, { m with ctrl_r := true })
  else if x = 0x9d then return (otherkey, x, { m with ctrl_r := false })
  else if x = 0x38 then return (otherkey, x, { m with alt_r := true })
  else if x = 0xb8 then return (otherkey, x, { m with alt_r := false })
  else return (otherkey, x, m)

/- if(key == 0). -/
def plainCode (m : Modifiers) (x : UInt8) : UInt8 × Modifiers :=
  let make := x &&& 0x80 = 0
  let keyrow := keycodeMapNormal.getD (x &&& 0x7f).toNat (0, 0)
  let key := if m.shift_l || m.shift_r then keyrow.2 else keyrow.1
  if x &&& 0x7f = 0x2a then (0, { m with shift_l := make })
  else if x &&& 0x7f = 0x36 then (0, { m with shift_r := make })
  else if x &&& 0x7f = 0x1d then (0, { m with ctrl_l := make })
  else if x &&& 0x7f = 0x38 then (0, { m with alt_l := make })
  else (if make then key else 0, m)

def decode (m : Modifiers) (x : UInt8) : Reading (Nat × UInt8 × Modifiers) :=
  if x = 0xe1 then do
    let whole ← matchPause pausebreakScode.tail
    return (if whole then pausebreak else 0, x, m)
  else if x = 0xe0 then prefixedCode m
  else return (0, x, m)

def analysisKeycode (m : Modifiers) : Reading (UInt8 × Modifiers) := do
  let x ← getScancode
  let decoded ← decode m x
  return if decoded.1 = 0 then plainCode decoded.2.2 decoded.2.1 else (0, decoded.2.2)

/- A call of analysis_keycode that does not wait. -/
def Call (s : Modifiers × Input) (key : UInt8) (s' : Modifiers × Input) : Prop :=
  analysisKeycode s.1 s.2 = some ((key, s'.1), s'.2)

/- What a keyboard sends: a code by itself, a code behind E0, or the pause sequence. -/
inductive Sequence
  | plain (code : UInt8) (single : code ≠ 0xe0 ∧ code ≠ 0xe1)
  | extended (code : UInt8)
  | pause
deriving DecidableEq

def Sequence.codes : Sequence → List UInt8
  | .plain code _ => [code]
  | .extended code => [0xe0, code]
  | .pause => pausebreakScode

def codes (seqs : List Sequence) : List UInt8 := seqs.flatMap Sequence.codes

def plains (seqs : List Sequence) : List UInt8 :=
  seqs.filterMap fun
    | .plain code _ => some code
    | _ => none

def lastMade (make release : UInt8) (seqs : List Sequence) : Bool :=
  ((plains seqs).filter fun code => code = make || code = release).getLast? = some make

/- The four modifiers that the unprefixed codes press and release. -/
structure Tracked (seqs : List Sequence) (m : Modifiers) : Prop where
  shift_l : m.shift_l = lastMade 0x2a 0xaa seqs
  shift_r : m.shift_r = lastMade 0x36 0xb6 seqs
  ctrl_l : m.ctrl_l = lastMade 0x1d 0x9d seqs
  alt_l : m.alt_l = lastMade 0x38 0xb8 seqs

def held (seqs : List Sequence) : Bool × Bool × Bool × Bool :=
  (lastMade 0x2a 0xaa seqs, lastMade 0x36 0xb6 seqs, lastMade 0x1d 0x9d seqs, lastMade 0x38 0xb8 seqs)

/- E0 2A is followed by E0 37, or by a sequence that leaves shift_l pressed and the others as they are;
   E0 B7 is followed by a sequence that leaves all of them as they are. The pause sequence is neither. -/
def Clean : List Sequence → List Sequence → Prop
  | _, [] => True
  | _, [seq] => seq ≠ .extended 0x2a ∧ seq ≠ .extended 0xb7
  | done, seq :: next :: rest =>
    if seq = .extended 0x2a then
      (next = .extended 0x37 ∨ next ≠ .pause ∧ held (done ++ [next]) = (true, (held done).2)) ∧
        Clean (done ++ [seq, next]) rest
    else if seq = .extended 0xb7 then
      (next ≠ .pause ∧ held (done ++ [next]) = held done) ∧ Clean (done ++ [seq, next]) rest
    else Clean (done ++ [seq]) (next :: rest)

section held
variable {seqs done : List Sequence} {seq next : Sequence} {m : Modifiers}

theorem tracked_iff : Tracked seqs m ↔ (m.shift_l, m.shift_r, m.ctrl_l, m.alt_l) = held seqs := by
  constructor
  · intro tracked
    unfold held
    rw [← tracked.shift_l, ← tracked.shift_r, ← tracked.ctrl_l, ← tracked.alt_l]
  · intro same
    obtain ⟨first, same⟩ := Prod.mk.inj same
    obtain ⟨second, same⟩ := Prod.mk.inj same
    obtain ⟨third, fourth⟩ := Prod.mk.inj same
    exact ⟨first, second, third, fourth⟩

theorem lastMade_other {make release : UInt8} (other : plains [seq] = []) :
    lastMade make release (seqs ++ [seq]) = lastMade make release seqs := by
  unfold lastMade
  rw [show plains (seqs ++ [seq]) = plains seqs ++ plains [seq] from List.filterMap_append, other,
    List.append_nil]

theorem held_other (other : plains [seq] = []) : held (seqs ++ [seq]) = held seqs := by
  unfold held
  rw [lastMade_other other, lastMade_other other, lastMade_other other, lastMade_other other]

theorem lastMade_plain {make release code : UInt8} (single : code ≠ 0xe0 ∧ code ≠ 0xe1) :
    lastMade make release (seqs ++ [.plain code single]) =
      if code = make ∨ code = release then decide (code = make) else lastMade make release seqs := by
  unfold lastMade
  rw [show plains (seqs ++ [.plain code single]) = plains seqs ++ [code] from List.filterMap_append,
    List.filter_append]
  by_cases either : code = make ∨ code = release
  · have kept : [code].filter (fun code => code = make || code = release) = [code] :=
      List.filter_cons_of_pos (by simpa using either)
    rw [if_pos either, kept, List.getLast?_concat]
    exact decide_eq_decide.mpr Option.some_inj
  · have none_ : [code].filter (fun code => code = make || code = release) = [] :=
      List.filter_cons_of_neg (by simpa using either)
    rw [if_neg either, none_, List.append_nil]

theorem low_bits (code : UInt8) :
    (code &&& 0x7f = 0x2a ↔ code = 0x2a ∨ code = 0xaa) ∧ (code &&& 0x7f = 0x36 ↔ code = 0x36 ∨ code = 0xb6) ∧
      (code &&& 0x7f = 0x1d ↔ code = 0x1d ∨ code = 0x9d) ∧
      (code &&& 0x7f = 0x38 ↔ code = 0x38 ∨ code = 0xb8) := by
  have all : ∀ i < 256, let code := UInt8.ofNat i
      (code &&& 0x7f = 0x2a ↔ code = 0x2a ∨ code = 0xaa) ∧
        (code &&& 0x7f = 0x36 ↔ code = 0x36 ∨ code = 0xb6) ∧
        (code &&& 0x7f = 0x1d ↔ code = 0x1d ∨ code = 0x9d) ∧
        (code &&& 0x7f = 0x38 ↔ code = 0x38 ∨ code = 0xb8) := by decide +kernel
  have here := all code.toNat code.toNat_lt
  rwa [UInt8.ofNat_toNat] at here

theorem plainCode_tracked {code : UInt8} (single : code ≠ 0xe0 ∧ code ≠ 0xe1) (tracked : Tracked done m) :
    Tracked (done ++ [.plain code single]) (plainCode m code).2 := by
  obtain ⟨shift_l, shift_r, ctrl_l, alt_l⟩ := low_bits code
  obtain ⟨tracked₁, tracked₂, tracked₃, tracked₄⟩ := tracked
  by_cases is_shift_l : code = 0x2a ∨ code = 0xaa
  · obtain rfl | rfl := is_shift_l <;>
      exact ⟨by rw [lastMade_plain]; rfl, by rw [lastMade_plain]; exact tracked₂,
        by rw [lastMade_plain]; exact tracked₃, by rw [lastMade_plain]; exact tracked₄⟩
  by_cases is_shift_r : code = 0x36 ∨ code = 0xb6
  · obtain rfl | rfl := is_shift_r <;>
      exact ⟨by rw [lastMade_plain]; exact tracked₁, by rw [lastMade_plain]; rfl,
        by rw [lastMade_plain]; exact tracked₃, by rw [lastMade_plain]; exact tracked₄⟩
  by_cases is_ctrl_l : code = 0x1d ∨ code = 0x9d
  · obtain rfl | rfl := is_ctrl_l <;>
      exact ⟨by rw [lastMade_plain]; exact tracked₁, by rw [lastMade_plain]; exact tracked₂,
        by rw [lastMade_plain]; rfl, by rw [lastMade_plain]; exact tracked₄⟩
  by_cases is_alt_l : code = 0x38 ∨ code = 0xb8
  · obtain rfl | rfl := is_alt_l <;>
      exact ⟨by rw [lastMade_plain]; exact tracked₁, by rw [lastMade_plain]; exact tracked₂,
        by rw [lastMade_plain]; exact tracked₃, by rw [lastMade_plain]; rfl⟩
  · have unchanged : (plainCode m code).2 = m := by
      unfold plainCode
      rw [if_neg (fun here => is_shift_l (shift_l.mp here)), if_neg (fun here => is_shift_r (shift_r.mp here)),
        if_neg (fun here => is_ctrl_l (ctrl_l.mp here)), if_neg (fun here => is_alt_l (alt_l.mp here))]
    rw [unchanged]
    refine ⟨?_, ?_, ?_, ?_⟩ <;> rw [lastMade_plain]
    · rw [if_neg is_shift_l, tracked₁]
    · rw [if_neg is_shift_r, tracked₂]
    · rw [if_neg is_ctrl_l, tracked₃]
    · rw [if_neg is_alt_l, tracked₄]

end held

section calls
variable {done : List Sequence} {next : Sequence} {m : Modifiers} {input : List UInt8} {rest : Input}
  {code x : UInt8}

theorem call_decoded {key : Nat} {m' : Modifiers}
    (decoded : decode m code (oneByOne input) = some ((key, x, m'), rest)) :
    analysisKeycode m (oneByOne (code :: input)) =
      some (if key = 0 then plainCode m' x else (0, m'), rest) := by
  show (decode m code (oneByOne input)).bind _ = _
  rw [decoded]
  rfl

theorem call_plain (single : code ≠ 0xe0 ∧ code ≠ 0xe1) :
    analysisKeycode m (oneByOne (code :: input)) = some (plainCode m code, oneByOne input) := by
  refine @call_decoded m input (oneByOne input) code code 0 m ?_
  rw [decode, if_neg single.2, if_neg single.1]
  rfl

theorem call_pause :
    analysisKeycode m (oneByOne (pausebreakScode ++ input)) = some ((0, m), oneByOne input) := rfl

theorem call_extended (first : code ≠ 0x2a) (second : code ≠ 0xb7) (tracked : Tracked done m) :
    ∃ m', analysisKeycode m (oneByOne (0xe0 :: code :: input)) = some ((0, m'), oneByOne input) ∧
      Tracked done m' := by
  have decoded : ∃ m', decode m 0xe0 (oneByOne (code :: input)) =
      some ((otherkey, code, m'), oneByOne input) ∧ Tracked done m' := by
    obtain ⟨shift_l, shift_r, ctrl_l, alt_l⟩ := tracked
    show ∃ m', prefixedCode m (oneByOne (code :: input)) = _ ∧ _
    unfold prefixedCode
    show ∃ m', (if code = 0x2a then _ else if code = 0xb7 then _ else _ : Reading _)
      (oneByOne input) = _ ∧ _
    rw [if_neg first, if_neg second]
    split
    · exact ⟨_, rfl, shift_l, shift_r, ctrl_l, alt_l⟩
    split
    · exact ⟨_, rfl, shift_l, shift_r, ctrl_l, alt_l⟩
    split
    · exact ⟨_, rfl, shift_l, shift_r, ctrl_l, alt_l⟩
    split
    · exact ⟨_, rfl, shift_l, shift_r, ctrl_l, alt_l⟩
    · exact ⟨_, rfl, shift_l, shift_r, ctrl_l, alt_l⟩
  obtain ⟨m', decoded, tracked'⟩ := decoded
  exact ⟨m', call_decoded decoded, tracked'⟩

theorem screenCode_codes (last : UInt8) (more : next ≠ .pause) :
    screenCode last (oneByOne (next.codes ++ input)) =
      some (if next = .extended last then printscreen else 0, oneByOne input) := by
  cases next with
  | plain code single =>
    show (if code = 0xe0 then _ else _ : Reading Nat) (oneByOne input) = _
    rw [if_neg single.1]
    rfl
  | extended code =>
    show (if code = last then _ else _ : Reading Nat) (oneByOne input) = _
    by_cases same : code = last
    · rw [if_pos same, if_pos (by rw [same])]
      rfl
    · rw [if_neg same, if_neg (by simpa using same)]
      rfl
  | pause => exact absurd rfl more

/- E0 2A reads the next sequence too, and counts as a plain 2A unless that is E0 37. -/
theorem call_fakeShift (more : next ≠ .pause) :
    analysisKeycode m (oneByOne (0xe0 :: 0x2a :: (next.codes ++ input))) =
      some ((0, if next = .extended 0x37 then m else { m with shift_l := true }),
        oneByOne input) := by
  have decoded : decode m 0xe0 (oneByOne (0x2a :: (next.codes ++ input))) =
      some ((if next = .extended 0x37 then printscreen else 0, 0x2a, m), oneByOne input) := by
    show (screenCode 0x37 (oneByOne (next.codes ++ input))).bind _ = _
    rw [screenCode_codes 0x37 more]
    rfl
  rw [call_decoded decoded]
  split <;> rfl

theorem call_fakeScreen (more : next ≠ .pause) :
    analysisKeycode m (oneByOne (0xe0 :: 0xb7 :: (next.codes ++ input))) =
      some ((0, m), oneByOne input) := by
  have decoded : decode m 0xe0 (oneByOne (0xb7 :: (next.codes ++ input))) =
      some ((if next = .extended 0xaa then printscreen else 0, 0xb7, m), oneByOne input) := by
    show (screenCode 0xaa (oneByOne (next.codes ++ input))).bind _ = _
    rw [screenCode_codes 0xaa more]
    rfl
  rw [call_decoded decoded]
  split <;> rfl

end calls

section runs
variable {done rest : List Sequence} {seq next : Sequence} {m : Modifiers} {input : List UInt8}

theorem held_congr {seqs other : List Sequence} (same : plains seqs = plains other) : held seqs = held other := by
  unfold held lastMade
  rw [same]

theorem call_single (first : seq ≠ .extended 0x2a) (second : seq ≠ .extended 0xb7) (tracked : Tracked done m) :
    ∃ key m', analysisKeycode m (oneByOne (seq.codes ++ input)) = some ((key, m'), oneByOne input) ∧
      Tracked (done ++ [seq]) m' := by
  cases seq with
  | plain code single => exact ⟨_, _, call_plain single, plainCode_tracked single tracked⟩
  | extended code =>
    obtain ⟨m', ran, tracked'⟩ := @call_extended done m input code (fun same => first (by rw [same]))
      (fun same => second (by rw [same])) tracked
    refine ⟨0, m', ran, tracked_iff.mpr ((tracked_iff.mp tracked').trans ?_)⟩
    exact (held_other rfl).symm
  | pause => exact ⟨0, m, call_pause, tracked_iff.mpr ((tracked_iff.mp tracked).trans (held_other rfl).symm)⟩

/- The pair after which a call stops, with what the second sequence does to the modifiers. -/
theorem pair_held (code : UInt8) : held (done ++ [.extended code, next]) = held (done ++ [next]) := by
  apply held_congr
  unfold plains
  rw [List.filterMap_append, List.filterMap_append]
  rfl

/- Where the stream is clean, a call takes whole sequences and leaves the modifiers tracked. -/
theorem call_tracked (clean : Clean done rest) (more : rest ≠ []) (tracked : Tracked done m) :
    ∃ key m' used rest', rest = used ++ rest' ∧ used ≠ [] ∧
      analysisKeycode m (oneByOne (codes rest)) = some ((key, m'), oneByOne (codes rest')) ∧
      Tracked (done ++ used) m' ∧ Clean (done ++ used) rest' := by
  match rest, more with
  | [seq], _ =>
    obtain ⟨key, m', ran, tracked'⟩ := @call_single done seq m [] clean.1 clean.2 tracked
    exact ⟨key, m', [seq], [], rfl, List.cons_ne_nil _ _, ran, tracked', trivial⟩
  | seq :: next :: rest, _ =>
    unfold Clean at clean
    by_cases first : seq = .extended 0x2a
    · rw [if_pos first] at clean
      obtain ⟨either, clean'⟩ := clean
      subst first
      have follows : next ≠ .pause := by
        rcases either with screen | ⟨other, _⟩
        · rw [screen]
          exact fun same => by cases same
        · exact other
      refine ⟨_, _, [.extended 0x2a, next], rest, rfl, List.cons_ne_nil _ _, call_fakeShift follows, ?_, clean'⟩
      rw [tracked_iff, pair_held]
      rcases either with screen | ⟨_, same⟩
      · rw [screen, if_pos rfl, held_other rfl]
        exact tracked_iff.mp tracked
      · by_cases screen : next = .extended 0x37
        · rw [if_pos screen, screen, held_other rfl]
          exact tracked_iff.mp tracked
        · rw [if_neg screen, same, ← tracked_iff.mp tracked]
    · rw [if_neg first] at clean
      by_cases second : seq = .extended 0xb7
      · rw [if_pos second] at clean
        obtain ⟨⟨follows, same⟩, clean'⟩ := clean
        subst second
        refine ⟨_, _, [.extended 0xb7, next], rest, rfl, List.cons_ne_nil _ _, call_fakeScreen follows, ?_, clean'⟩
        rw [tracked_iff, pair_held, same]
        exact tracked_iff.mp tracked
      · rw [if_neg second] at clean
        obtain ⟨key, m', ran, tracked'⟩ := @call_single done seq m (codes (next :: rest)) first second tracked
        exact ⟨key, m', [seq], next :: rest, rfl, List.cons_ne_nil _ _, ran, tracked', clean⟩

def Between (seqs : List Sequence) (s : Modifiers × Input) : Prop :=
  ∃ done rest, seqs = done ++ rest ∧ s.2 = oneByOne (codes rest) ∧ Tracked done s.1 ∧ Clean done rest

theorem call_between {seqs : List Sequence} {s s' : Modifiers × Input} {key : UInt8}
    (between : Between seqs s) (call : Call s key s') : Between seqs s' := by
  obtain ⟨done, rest, split, input, tracked, clean⟩ := between
  have more : rest ≠ [] := by
    rintro rfl
    unfold Call at call
    rw [input] at call
    cases call
  obtain ⟨key', m', used, rest', cut, _, ran, tracked', clean'⟩ := call_tracked clean more tracked
  unfold Call at call
  rw [input, ran] at call
  obtain ⟨answer, left⟩ := Prod.mk.inj (Option.some.inj call)
  obtain ⟨_, same⟩ := Prod.mk.inj answer
  exact ⟨done ++ used, rest', by rw [split, cut, List.append_assoc], left.symm, same ▸ tracked', clean'⟩

theorem calls_end (length : Nat) (short : rest.length ≤ length) (clean : Clean done rest)
    (tracked : Tracked done m) :
    ∃ keys m', Steps Call (m, oneByOne (codes rest)) keys (m', oneByOne []) ∧
      Tracked (done ++ rest) m' := by
  induction length generalizing done rest m with
  | zero =>
    obtain rfl := List.length_eq_zero_iff.mp (Nat.le_zero.mp short)
    rw [List.append_nil]
    exact ⟨[], m, .nil _, tracked⟩
  | succ length ih =>
    by_cases none_ : rest = []
    · rw [none_, List.append_nil]
      exact ⟨[], m, .nil _, tracked⟩
    · obtain ⟨key, m', used, rest', cut, some_, ran, tracked', clean'⟩ := call_tracked clean none_ tracked
      have shorter : rest'.length ≤ length := by
        have counted := congrArg List.length cut
        have positive := List.length_pos_iff.mpr some_
        rw [List.length_append] at counted
        omega
      obtain ⟨keys, m'', calls, tracked''⟩ := ih shorter clean' tracked'
      have call : Call (m, oneByOne (codes rest)) key (m', oneByOne (codes rest')) := ran
      refine ⟨key :: keys, m'', .cons call calls, ?_⟩
      rw [cut, ← List.append_assoc]
      exact tracked''

end runs

def pressed : List Sequence := [.plain 0x2a (by decide), .extended 0x2a, .extended 0x37, .pause]

def homeKey : List Sequence := [.extended 0x2a, .extended 0x47]

/- Shift is pressed and released before the shell reads: the second code is written behind ret. -/
def tapped : List Sequence := [.plain 0x2a (by decide), .plain 0xaa (by decide)]

theorem waiting_code_lost :
    Steps Call (released, ⟨codes tapped, [], []⟩) [0]
        ({ released with shift_l := true }, ⟨[], [], [0xaa]⟩) ∧
      ¬ Tracked tapped { released with shift_l := true } := by
  refine ⟨steps_single rfl, fun tracked => ?_⟩
  have pressed : true = lastMade 0x2a 0xaa tapped := tracked.shift_l
  exact absurd pressed (by decide)

end ShellKeyboard

import Q2os.StackMachine

/- Control flow of straight-line code: jumps, calls of routines that are known by what they leave,
   and the ways the processor enters a privilege level and leaves it. -/
namespace ControlFlow
open StackMachine
variable {M : Type} [WordMemory M]

/- Code up to where control leaves it. A transfer passes control on to code at an address; a routine
   is entered with the return address on the stack, and the flow goes on where it comes back to. -/
inductive Flow (M : Type) where
  | leave (goes : Machine M → Machine M)
  | pass (goes : Machine M → Machine M) (entry : Word) (next : Flow M)
  | run (code : List Instr) (next : Flow M)
  | branch (taken : Machine M → Prop) (yes no : Flow M)
  | enter (target : Machine M → Word) (ret : Word) (next : Flow M)

def call (target : Machine M → Word) (ret : Word) (next : Flow M) : Flow M :=
  .run [.pushImm ret] (.enter target ret next)

section runs
variable (status : Instr → Machine M → Word) (routine : Word → Machine M → Machine M → Prop)

/- The machine a flow is left with; none where control went to another address. -/
inductive Runs : Flow M → Machine M → Option (Machine M) → Prop where
  | leave (goes : Machine M → Machine M) (m : Machine M) : Runs (.leave goes) m (some (goes m))
  | pass {goes : Machine M → Machine M} {entry : Word} {next : Flow M} {m : Machine M}
      {out : Option (Machine M)} :
      (goes m).rip = entry → Runs next (goes m) out → Runs (.pass goes entry next) m out
  | lost {goes : Machine M → Machine M} {entry : Word} {next : Flow M} {m : Machine M} :
      (goes m).rip ≠ entry → Runs (.pass goes entry next) m none
  | run {code : List Instr} {next : Flow M} {m : Machine M} {out : Option (Machine M)} :
      Runs next (StackMachine.run status code m) out → Runs (.run code next) m out
  | yes {taken : Machine M → Prop} {yes no : Flow M} {m : Machine M} {out : Option (Machine M)} :
      taken m → Runs yes m out → Runs (.branch taken yes no) m out
  | no {taken : Machine M → Prop} {yes no : Flow M} {m : Machine M} {out : Option (Machine M)} :
      ¬ taken m → Runs no m out → Runs (.branch taken yes no) m out
  | back {target : Machine M → Word} {ret : Word} {next : Flow M} {m m' : Machine M}
      {out : Option (Machine M)} :
      routine (target m) m m' → m'.rip = ret → Runs next m' out →
        Runs (.enter target ret next) m out
  | astray {target : Machine M → Word} {ret : Word} {next : Flow M} {m m' : Machine M} :
      routine (target m) m m' → m'.rip ≠ ret → Runs (.enter target ret next) m none

/- Control never leaves the flow but at its end, and there it is as wanted. -/
def Ensures : Flow M → (Machine M → Prop) → Machine M → Prop
  | .leave goes, post, m => post (goes m)
  | .pass goes entry next, post, m => (goes m).rip = entry ∧ Ensures next post (goes m)
  | .run code next, post, m => Ensures next post (StackMachine.run status code m)
  | .branch taken yes no, post, m =>
    (taken m → Ensures yes post m) ∧ (¬ taken m → Ensures no post m)
  | .enter target ret next, post, m =>
    ∀ m', routine (target m) m m' → m'.rip = ret ∧ Ensures next post m'

variable {status routine}

theorem ensures_run {flow : Flow M} {post : Machine M → Prop} {m : Machine M}
    {out : Option (Machine M)} (runs : Runs status routine flow m out)
    (ensures : Ensures status routine flow post m) : ∃ m', out = some m' ∧ post m' := by
  induction runs with
  | leave goes m => exact ⟨goes m, rfl, ensures⟩
  | pass _ _ ih => exact ih ensures.2
  | lost elsewhere => exact absurd ensures.1 elsewhere
  | run _ ih => exact ih ensures
  | yes taken _ ih => exact ih (ensures.1 taken)
  | no skipped _ ih => exact ih (ensures.2 skipped)
  | back returned _ _ ih => exact ih (ensures _ returned).2
  | astray returned elsewhere => exact absurd (ensures _ returned).1 elsewhere

theorem ensures_mono {flow : Flow M} {first second : Machine M → Prop} {m : Machine M}
    (ensures : Ensures status routine flow first m) (weaker : ∀ m', first m' → second m') :
    Ensures status routine flow second m := by
  induction flow generalizing m with
  | leave goes => exact weaker _ ensures
  | pass goes entry next ih => exact ⟨ensures.1, ih ensures.2⟩
  | run code next ih => exact ih ensures
  | branch taken yes no ih_yes ih_no =>
    exact ⟨fun took => ih_yes (ensures.1 took), fun skipped => ih_no (ensures.2 skipped)⟩
  | enter target ret next ih =>
    exact fun m' returned => ⟨(ensures m' returned).1, ih (ensures m' returned).2⟩

theorem ensures_of_runs {flow : Flow M} {post : Machine M → Prop} {m : Machine M}
    (runs : ∀ out, Runs status routine flow m out → ∃ m', out = some m' ∧ post m') :
    Ensures status routine flow post m := by
  induction flow generalizing m with
  | leave goes =>
    obtain ⟨m', same, holds⟩ := runs _ (.leave goes m)
    cases same
    exact holds
  | pass goes entry next ih =>
    have here : (goes m).rip = entry := by
      by_contra elsewhere
      obtain ⟨_, impossible, _⟩ := runs none (.lost elsewhere)
      cases impossible
    exact ⟨here, ih fun out ran => runs out (.pass here ran)⟩
  | run code next ih => exact ih fun out ran => runs out (.run ran)
  | branch taken yes no ih_yes ih_no =>
    constructor
    · exact fun took => ih_yes fun out ran => runs out (.yes took ran)
    · exact fun skipped => ih_no fun out ran => runs out (.no skipped ran)
  | enter target ret next ih =>
    intro m' returned
    have here : m'.rip = ret := by
      by_contra elsewhere
      obtain ⟨_, impossible, _⟩ := runs none (.astray returned elsewhere)
      cases impossible
    exact ⟨here, ih fun out ran => runs out (.back returned here ran)⟩

/- The rule of a flow says neither more nor less than all its runs do. -/
theorem ensures_iff {flow : Flow M} {post : Machine M → Prop} {m : Machine M} :
    Ensures status routine flow post m ↔
      ∀ out, Runs status routine flow m out → ∃ m', out = some m' ∧ post m' :=
  ⟨fun ensures _ runs => ensures_run runs ensures, ensures_of_runs⟩

theorem exists_run (returns : ∀ f m, ∃ m', routine f m m') (flow : Flow M) (m : Machine M) :
    ∃ out, Runs status routine flow m out := by
  induction flow generalizing m with
  | leave goes => exact ⟨_, .leave goes m⟩
  | pass goes entry next ih =>
    by_cases here : (goes m).rip = entry
    · obtain ⟨out, runs⟩ := ih (goes m)
      exact ⟨out, .pass here runs⟩
    · exact ⟨none, .lost here⟩
  | run code next ih =>
    obtain ⟨out, runs⟩ := ih (StackMachine.run status code m)
    exact ⟨out, .run runs⟩
  | branch taken yes no ih_yes ih_no =>
    by_cases took : taken m
    · obtain ⟨out, runs⟩ := ih_yes m
      exact ⟨out, .yes took runs⟩
    · obtain ⟨out, runs⟩ := ih_no m
      exact ⟨out, .no took runs⟩
  | enter target ret next ih =>
    obtain ⟨m', returned⟩ := returns (target m) m
    by_cases here : m'.rip = ret
    · obtain ⟨out, runs⟩ := ih m'
      exact ⟨out, .back returned here runs⟩
    · exact ⟨none, .astray returned here⟩

end runs

inductive Enters (status : Instr → Machine M → Word)
    (routine : Word → Machine M → Machine M → Prop) :
    Flow M → Machine M → Word → Machine M → Prop where
  | here {target : Machine M → Word} {ret : Word} {next : Flow M} {m : Machine M} :
      Enters status routine (.enter target ret next) m (target m) m
  | back {target : Machine M → Word} {ret f : Word} {next : Flow M} {m m' b : Machine M} :
      routine (target m) m m' → m'.rip = ret → Enters status routine next m' f b →
        Enters status routine (.enter target ret next) m f b
  | pass {goes : Machine M → Machine M} {entry f : Word} {next : Flow M} {m b : Machine M} :
      (goes m).rip = entry → Enters status routine next (goes m) f b →
        Enters status routine (.pass goes entry next) m f b
  | run {code : List Instr} {next : Flow M} {f : Word} {m b : Machine M} :
      Enters status routine next (StackMachine.run status code m) f b →
        Enters status routine (.run code next) m f b
  | yes {taken : Machine M → Prop} {yes no : Flow M} {f : Word} {m b : Machine M} :
      taken m → Enters status routine yes m f b → Enters status routine (.branch taken yes no) m f b
  | no {taken : Machine M → Prop} {yes no : Flow M} {f : Word} {m b : Machine M} :
      ¬ taken m → Enters status routine no m f b → Enters status routine (.branch taken yes no) m f b

/- A stack from its bottom on, and the words that the routines that run on it do not own. -/
structure Region where
  bottom : Nat
  kept : Nat → Prop

/- What a routine promises its caller: it returns to the address on the stack, and leaves the words
   of the region alone except below its own frame. -/
def Keeps (region : Region) (routine : Machine M → Machine M → Prop) : Prop :=
  ∀ m m', routine m m' → m'.rip = m.top ∧ m'.reg .rsp = m.reg .rsp + 8 ∧
    ∀ a, region.kept a → m.sp + 8 ≤ a ∨ a + 8 ≤ region.bottom →
      load m'.memory a = load m.memory a

/- A machine that shows a part of its stack, in a region of which the rest is as it was. -/
structure Holds (region : Region) (before m : Machine M) (v : View) : Prop where
  shows : Shows m v
  bottom : region.bottom ≤ v.low
  within : ∀ a, region.bottom ≤ a → a + 8 ≤ v.high → region.kept a
  kept : ∀ a, region.kept a → v.high ≤ a ∨ a + 8 ≤ region.bottom →
    load m.memory a = load before.memory a

section holds
variable {region : Region} {before m m' : Machine M} {v v' : View}
  {status : Instr → Machine M → Word}

theorem Holds.set (holds : Holds region before m v) {r : Reg} (w : Word) (other : r ≠ .rsp) :
    Holds region before (m.set r w) (v.set r w) :=
  ⟨holds.shows.set w other, holds.bottom, holds.within, holds.kept⟩

theorem Holds.own (holds : Holds region before m v) :
    Holds region before m { v with reg := m.reg, seg := m.seg } :=
  ⟨⟨fun _ _ => rfl, rfl, holds.shows.words, holds.shows.ends, holds.shows.bound,
    holds.shows.room⟩, holds.bottom, holds.within, holds.kept⟩

theorem Holds.run (holds : Holds region before m v) (code : List Instr)
    (ran : v.run code = some v') : Holds region before (StackMachine.run status code m) v' := by
  have ⟨same, higher⟩ := View.run_extent ran
  constructor
  · exact holds.shows.run code ran
  · exact holds.bottom.trans higher
  · rw [same]
    exact holds.within
  · intro a member outside
    rw [same] at outside
    have apart : a + 8 ≤ v.low ∨ v.high ≤ a := by
      have bottom := holds.bottom
      omega
    exact (holds.shows.run_outside code ran apart).trans (holds.kept a member outside)

theorem Holds.reserve (holds : Holds region before m v) {n : Nat} (room : n ≤ v.room)
    (status : Word) : ∃ ws : List Word, ws.length = n ∧
      Holds region before { m.set .rsp (m.reg .rsp - BitVec.ofNat 64 (8 * n)) with rflags := status }
        { v with stack := ws ++ v.stack, room := v.room - n } := by
  obtain ⟨ws, length, shows⟩ := holds.shows.reserve room status
  have bottom := holds.bottom
  refine ⟨ws, length, shows, ?_, holds.within, holds.kept⟩
  show region.bottom ≤ v.high - 8 * ((ws ++ v.stack).length + (v.room - n))
  rw [View.low] at bottom
  rw [List.length_append, length]
  omega

theorem Holds.returns {routine : Machine M → Machine M → Prop} {ret : Word} {stack : List Word}
    (holds : Holds region before m v) (keeps : Keeps region routine) (returned : routine m m')
    (top : v.stack = ret :: stack) :
    m'.rip = ret ∧
      Holds region before m'
        { v with reg := m'.reg, seg := m'.seg, stack, room := v.room + 1 } := by
  obtain ⟨back, popped, kept⟩ := keeps m m' returned
  have ends := holds.shows.ends
  have words := holds.shows.words
  have bound := holds.shows.bound
  have room := holds.shows.room
  have bottom := holds.bottom
  rw [top] at ends words
  rw [View.low, top] at bottom
  simp only [List.length_cons] at ends bottom
  have moved : m'.sp = m.sp + 8 := by
    have dropped : m'.sp = m.drop.sp := by simp [Machine.sp, Machine.drop, popped]
    rw [dropped]
    exact Machine.drop_sp (by omega)
  refine ⟨back.trans words.1, ⟨fun r other => rfl, rfl, ?_, ?_, bound, ?_⟩, ?_, holds.within, ?_⟩
  · show Words m'.memory m'.sp stack
    rw [moved]
    apply words_congr (fun a low high => kept a (holds.within a ?_ ?_) (.inl low)) words.2
    · omega
    · omega
  · show m'.sp + 8 * stack.length = v.high
    omega
  · show 8 * (v.room + 1) ≤ m'.sp
    omega
  · show region.bottom ≤ v.high - 8 * (stack.length + (v.room + 1))
    omega
  · intro a member outside
    have beyond : v.high ≤ a ∨ a + 8 ≤ region.bottom := outside
    exact (kept a member (by omega)).trans (holds.kept a member beyond)

end holds

section privilege
variable (m : Machine M)

/- The privilege level is in the selector of the code that runs. -/
def level (m : Machine M) : BitVec 2 := (m.seg .cs).setWidth 2

def frameEnd (stack : Word) : Word := stack &&& ~~~0xF

def origin (m : Machine M) : List Word :=
  [m.rip, (m.seg .cs).setWidth 64, m.rflags, m.reg .rsp, (m.seg .ss).setWidth 64]

def pushAll (m : Machine M) (ws : List Word) : Machine M := ws.foldr (fun w m => m.push w) m

/- Coming from another privilege level the processor has a null selector for the stack. -/
def arrivalSeg (m : Machine M) (selector : BitVec 16) : Seg → BitVec 16 :=
  Function.update (if level m = 0 then m.seg else Function.update m.seg .ss 0) .cs selector

/- The processor takes an interrupt: it pushes what it comes from on a stack, and goes on at an
   entry. -/
def arrive (entry : Word) (selector : BitVec 16) (clear stack : Word) (error : Option Word) :
    Machine M :=
  { pushAll (m.set .rsp (frameEnd stack)) (error.toList ++ origin m) with
    seg := arrivalSeg m selector
    rip := entry
    rflags := m.rflags &&& ~~~clear }

def iretq : Machine M :=
  let popped (i : Nat) : Word := load m.memory (m.address .rsp (8 * i))
  { m with
    reg := Function.update m.reg .rsp (popped 3)
    seg := Function.update (Function.update m.seg .cs ((popped 1).setWidth 16)) .ss
      ((popped 4).setWidth 16)
    rip := popped 0
    rflags := popped 2 }

def sysenter : Machine M :=
  let cs : BitVec 16 := (m.msr 0x174).setWidth 16 &&& ~~~3
  { m with
    reg := Function.update m.reg .rsp (m.msr 0x175)
    seg := Function.update (Function.update m.seg .cs cs) .ss (cs + 8)
    rip := m.msr 0x176
    rflags := m.rflags &&& ~~~0x200 }

def sysexit : Machine M :=
  let cs : BitVec 16 := (m.msr 0x174).setWidth 16
  { m with
    reg := Function.update m.reg .rsp (m.reg .rcx)
    seg := Function.update (Function.update m.seg .cs ((cs + 32) ||| 3)) .ss ((cs + 40) ||| 3)
    rip := m.reg .rdx }

def retq : Machine M := { m.drop with rip := m.top }

end privilege

theorem retq_keeps (region : Region) : Keeps region fun m m' : Machine M => m' = retq m := by
  rintro m _ rfl
  exact ⟨rfl, by simp [retq, Machine.drop], fun _ _ _ => rfl⟩

section transfers
variable {m : Machine M} {v : View}

theorem pushAll_shows {ws : List Word} {room : Nat} (shows : Shows m v)
    (enough : v.room = room + ws.length) :
    Shows (pushAll m ws) { v with stack := ws ++ v.stack, room } := by
  induction ws generalizing room with
  | nil =>
    simp only [List.length_nil, Nat.add_zero] at enough
    subst enough
    exact shows
  | cons w ws ih =>
    simp only [List.length_cons] at enough
    have below : Shows _ { v with stack := ws ++ v.stack, room := room + 1 } := ih (by omega)
    exact below.push w rfl

theorem pushAll_outside {ws : List Word} {a : Nat} (shows : Shows m v)
    (enough : ws.length ≤ v.room) (outside : a + 8 ≤ v.low ∨ v.high ≤ a) :
    load (pushAll m ws).memory a = load m.memory a := by
  induction ws with
  | nil => rfl
  | cons w ws ih =>
    simp only [List.length_cons] at enough
    obtain ⟨room, some_room⟩ : ∃ room, v.room = room + 1 + ws.length :=
      ⟨v.room - 1 - ws.length, by omega⟩
    have below := pushAll_shows shows some_room
    have low : v.low = v.high - 8 * ((ws ++ v.stack).length + (room + 1)) := by
      simp only [View.low, some_room, List.length_append]
      congr 2
      omega
    have here := below.push_outside (a := a) w rfl (by rwa [View.low, ← low])
    exact here.trans (ih (by omega))

theorem arrive_empty (m : Machine M) (stack : Word) (error : Option Word) {room : Nat}
    (enough : 8 * (room + 6) ≤ (frameEnd stack).toNat) :
    Shows (m.set .rsp (frameEnd stack))
      ⟨m.reg, m.seg, [], (frameEnd stack).toNat, room + (error.toList ++ origin m).length⟩ := by
  constructor
  · intro r other
    simp [other]
  · rfl
  · trivial
  · simp [Machine.sp]
  · exact (frameEnd stack).isLt
  · have code : error.toList.length ≤ 1 := by cases error <;> simp
    simp only [Machine.sp, Machine.set_reg, Function.update_self, List.length_append, origin,
      List.length_cons, List.length_nil]
    omega

theorem arrive_shows (m : Machine M) (entry : Word) (selector : BitVec 16) (clear stack : Word)
    (error : Option Word) {room : Nat} (enough : 8 * (room + 6) ≤ (frameEnd stack).toNat) :
    Shows (arrive m entry selector clear stack error)
      ⟨m.reg, arrivalSeg m selector, error.toList ++ origin m, (frameEnd stack).toNat, room⟩ := by
  have pushed := pushAll_shows (arrive_empty m stack error enough) rfl
  simp only [List.append_nil] at pushed
  exact ⟨pushed.reg, rfl, pushed.words, pushed.ends, pushed.bound, pushed.room⟩

theorem arrive_holds {region : Region} (m : Machine M) (entry : Word) (selector : BitVec 16)
    (clear stack : Word) (error : Option Word) {room : Nat}
    (enough : region.bottom + 8 * (room + 6) ≤ (frameEnd stack).toNat)
    (within : ∀ a, region.bottom ≤ a → a + 8 ≤ (frameEnd stack).toNat → region.kept a) :
    Holds region m (arrive m entry selector clear stack error)
      ⟨m.reg, arrivalSeg m selector, error.toList ++ origin m, (frameEnd stack).toNat, room⟩ := by
  have code : (error.toList ++ origin m).length ≤ 6 := by cases error <;> simp [origin]
  refine ⟨arrive_shows m entry selector clear stack error (by omega), ?_, within, ?_⟩
  · show region.bottom ≤ (frameEnd stack).toNat - 8 * ((error.toList ++ origin m).length + room)
    omega
  · intro a _ outside
    have beyond : (frameEnd stack).toNat ≤ a ∨ a + 8 ≤ region.bottom := outside
    have empty : 8 * (room + 6) ≤ (frameEnd stack).toNat := by omega
    apply pushAll_outside (arrive_empty m stack error empty) (Nat.le_add_left _ _)
    simp only [View.low, List.length_nil]
    omega

theorem iretq_shows {rip cs rflags rsp ss : Word} {rest : List Word} (shows : Shows m v)
    (stack : v.stack = rip :: cs :: rflags :: rsp :: ss :: rest) :
    iretq m = { m with
      reg := Function.update m.reg .rsp rsp
      seg := Function.update (Function.update m.seg .cs (cs.setWidth 16)) .ss (ss.setWidth 16)
      rip := rip
      rflags := rflags } := by
  have popped (i : Nat) (w : Word) (got : v.stack[i]? = some w) :
      load m.memory (m.address .rsp (8 * i)) = w := by
    have within : i < v.stack.length := (List.getElem?_eq_some_iff.mp got).1
    have place : 8 * i / 8 = i := by omega
    rw [shows.address (by omega) (by omega), place]
    exact words_get shows.words got
  simp only [iretq, popped 0 rip (by simp [stack]), popped 1 cs (by simp [stack]),
    popped 2 rflags (by simp [stack]), popped 3 rsp (by simp [stack]),
    popped 4 ss (by simp [stack])]

end transfers

end ControlFlow

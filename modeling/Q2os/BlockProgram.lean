import Q2os.ByteMemory

/- Programs over a block device and a memory reached through pointers: a tree of the
   operations with what follows each answer. A transfer that fails answers none or false;
   fault is what the language leaves undefined. -/
namespace BlockProgram
open ByteMemory

inductive Prog (α : Type) : Type where
  | ret (value : α)
  | readSectors (sector count : Nat) (next : Option Memory → Prog α)
  | writeSectors (sector count : Nat) (data : Memory) (next : Bool → Prog α)
  | load (addr size : Nat) (next : Memory → Prog α)
  | store (addr size : Nat) (data : Memory) (next : Prog α)
  | alloc (next : Memory → Prog α)
  | fault

variable {α β γ : Type}

def Prog.bind : Prog α → (α → Prog β) → Prog β
  | .ret value, f => f value
  | .readSectors sector count next, f => .readSectors sector count fun reply => (next reply).bind f
  | .writeSectors sector count data next, f =>
    .writeSectors sector count data fun done => (next done).bind f
  | .load addr size next, f => .load addr size fun memory => (next memory).bind f
  | .store addr size data next, f => .store addr size data (next.bind f)
  | .alloc next, f => .alloc fun block => (next block).bind f
  | .fault, _ => .fault

instance : Monad Prog where
  pure := .ret
  bind := Prog.bind

def readSectors (sector count : Nat) : Prog (Option Memory) := .readSectors sector count .ret
def writeSectors (sector count : Nat) (data : Memory) : Prog Bool :=
  .writeSectors sector count data .ret
def load (addr size : Nat) : Prog Memory := .load addr size .ret
def store (addr size : Nat) (data : Memory) : Prog Unit := .store addr size data (.ret ())
def alloc : Prog Memory := .alloc .ret

abbrev Anything : Nat → Nat → Prop := fun _ _ => True

/-- Every access through a pointer and every write to the device is allowed and every result is
    as wanted, whatever the device answers and whatever memory holds. -/
def Always (touch put : Nat → Nat → Prop) : Prog α → (α → Prop) → Prop
  | .ret value, post => post value
  | .readSectors _ _ next, post => ∀ reply, Always touch put (next reply) post
  | .writeSectors sector count _ next, post =>
    put sector count ∧ ∀ done, Always touch put (next done) post
  | .load addr size next, post =>
    touch addr size ∧ ∀ memory, Always touch put (next memory) post
  | .store addr size _ next, post => touch addr size ∧ Always touch put next post
  | .alloc next, post => ∀ block, Always touch put (next block) post
  | .fault, _ => True

/- The machine: the sectors of the device one after the other, the memory behind pointers,
   what fresh blocks hold, and the history of sectors written and addresses used. -/
structure World where
  disk : Memory
  memory : Memory
  fresh : List Memory
  written : List (Nat × Nat)
  touched : List (Nat × Nat)

def World.sectors (w : World) (sector : Nat) : Memory := fun i => w.disk (512 * sector + i)

def World.putSectors (w : World) (sector count : Nat) (data : Memory) : World :=
  { w with
    disk := copy data 0 w.disk (512 * sector) (512 * count)
    written := w.written ++ [(sector, count)] }

def World.touch (w : World) (addr size : Nat) : World :=
  { w with touched := w.touched ++ [(addr, size)] }

/- A run on a device whose transfers succeed; none for a fault. -/
def run : Prog α → World → Option (α × World)
  | .ret value, w => some (value, w)
  | .readSectors sector _ next, w => run (next (some (w.sectors sector))) w
  | .writeSectors sector count data next, w => run (next true) (w.putSectors sector count data)
  | .load addr size next, w => run (next w.memory) (w.touch addr size)
  | .store addr size data next, w =>
    run next { w.touch addr size with memory := copy data 0 w.memory addr size }
  | .alloc next, w => run (next (w.fresh.headD fun _ => 0)) { w with fresh := w.fresh.tail }
  | .fault, _ => none

section rules
variable (touch put : Nat → Nat → Prop)

@[simp] theorem always_pure (value : α) (post : α → Prop) :
    Always touch put (pure value) post ↔ post value := Iff.rfl

@[simp] theorem always_readSectors (sector count : Nat) (post : Option Memory → Prop) :
    Always touch put (readSectors sector count) post ↔ ∀ reply, post reply := Iff.rfl

@[simp] theorem always_writeSectors (sector count : Nat) (data : Memory) (post : Bool → Prop) :
    Always touch put (writeSectors sector count data) post ↔
      put sector count ∧ ∀ done, post done := Iff.rfl

@[simp] theorem always_load (addr size : Nat) (post : Memory → Prop) :
    Always touch put (load addr size) post ↔ touch addr size ∧ ∀ memory, post memory := Iff.rfl

@[simp] theorem always_store (addr size : Nat) (data : Memory) (post : Unit → Prop) :
    Always touch put (store addr size data) post ↔ touch addr size ∧ post () := Iff.rfl

@[simp] theorem always_alloc (post : Memory → Prop) :
    Always touch put alloc post ↔ ∀ block, post block := Iff.rfl

@[simp] theorem always_fault (post : α → Prop) :
    Always touch put .fault post ↔ True := Iff.rfl

@[simp] theorem always_bind (p : Prog α) (f : α → Prog β) (post : β → Prop) :
    Always touch put (p >>= f) post ↔
      Always touch put p fun a => Always touch put (f a) post := by
  induction p with
  | ret value => exact Iff.rfl
  | readSectors sector count next ih => exact forall_congr' fun reply => ih reply
  | writeSectors sector count data next ih =>
    exact and_congr_right' (forall_congr' fun done => ih done)
  | load addr size next ih => exact and_congr_right' (forall_congr' fun memory => ih memory)
  | store addr size data next ih => exact and_congr_right' ih
  | alloc next ih => exact forall_congr' fun block => ih block
  | fault => exact Iff.rfl

end rules

theorem always_mono {touch put : Nat → Nat → Prop} {p : Prog α} {post other : α → Prop}
    (h : Always touch put p post) (weaker : ∀ a, post a → other a) :
    Always touch put p other := by
  induction p with
  | ret value => exact weaker value h
  | readSectors sector count next ih => exact fun reply => ih reply (h reply)
  | writeSectors sector count data next ih => exact ⟨h.1, fun done => ih done (h.2 done)⟩
  | load addr size next ih => exact ⟨h.1, fun memory => ih memory (h.2 memory)⟩
  | store addr size data next ih => exact ⟨h.1, ih h.2⟩
  | alloc next ih => exact fun block => ih block (h block)
  | fault => trivial

theorem run_bind (p : Prog α) (f : α → Prog β) (w : World) :
    run (p >>= f) w = (run p w).bind fun a => run (f a.1) a.2 := by
  induction p generalizing w with
  | ret value => rfl
  | readSectors sector count next ih => exact ih _ w
  | writeSectors sector count data next ih => exact ih _ _
  | load addr size next ih => exact ih _ _
  | store addr size data next ih => exact ih _
  | alloc next ih => exact ih _ _
  | fault => rfl

theorem all_grown {ranges : List (Nat × Nat)} {ok : Nat → Nat → Prop} {addr size : Nat}
    (old : ∀ r ∈ ranges, ok r.1 r.2) (new : ok addr size) :
    ∀ r ∈ ranges ++ [(addr, size)], ok r.1 r.2 := by
  intro r member
  rcases List.mem_append.mp member with before | last
  · exact old r before
  · rw [List.mem_singleton.mp last]
    exact new

/-- What holds for every device holds in a run on one. -/
theorem run_always {touch put : Nat → Nat → Prop} {p : Prog α} {post : α → Prop} {w w' : World}
    {a : α} (h : Always touch put p post) (ran : run p w = some (a, w'))
    (start : ∀ r ∈ w.touched, touch r.1 r.2) (before : ∀ r ∈ w.written, put r.1 r.2) :
    post a ∧ (∀ r ∈ w'.touched, touch r.1 r.2) ∧ ∀ r ∈ w'.written, put r.1 r.2 := by
  induction p generalizing w with
  | ret value =>
    cases ran
    exact ⟨h, start, before⟩
  | readSectors sector count next ih => exact ih _ (h _) ran start before
  | writeSectors sector count data next ih =>
    exact ih _ (h.2 true) ran start (all_grown before h.1)
  | load addr size next ih =>
    exact ih _ (h.2 w.memory) ran (all_grown start h.1) before
  | store addr size data next ih =>
    exact ih h.2 ran (all_grown start h.1) before
  | alloc next ih => exact ih _ (h _) ran start before
  | fault => cases ran

/-- Every range of sectors that a run from a world reads is allowed and every result is as
    wanted, whichever reads of refused sectors and whichever writes fail. -/
def Asks (refused : Nat → Prop) (ok : Nat → Nat → Prop) :
    Prog α → World → (α → World → Prop) → Prop
  | .ret value, w, post => post value w
  | .readSectors sector count next, w, post =>
    ok sector count ∧ (refused sector → Asks refused ok (next none) w post) ∧
      Asks refused ok (next (some (w.sectors sector))) w post
  | .writeSectors sector count data next, w, post =>
    Asks refused ok (next false) w post ∧
      Asks refused ok (next true) (w.putSectors sector count data) post
  | .load addr size next, w, post => Asks refused ok (next w.memory) (w.touch addr size) post
  | .store addr size data next, w, post =>
    Asks refused ok next { w.touch addr size with memory := copy data 0 w.memory addr size } post
  | .alloc next, w, post =>
    Asks refused ok (next (w.fresh.headD fun _ => 0)) { w with fresh := w.fresh.tail } post
  | .fault, _, _ => True

section requests
variable (refused : Nat → Prop) (ok : Nat → Nat → Prop) (w : World)

@[simp] theorem asks_pure (value : α) (post : α → World → Prop) :
    Asks refused ok (pure value) w post ↔ post value w := Iff.rfl

@[simp] theorem asks_readSectors (sector count : Nat) (post : Option Memory → World → Prop) :
    Asks refused ok (readSectors sector count) w post ↔
      ok sector count ∧ (refused sector → post none w) ∧ post (some (w.sectors sector)) w := Iff.rfl

@[simp] theorem asks_alloc (post : Memory → World → Prop) :
    Asks refused ok alloc w post ↔
      post (w.fresh.headD fun _ => 0) { w with fresh := w.fresh.tail } := Iff.rfl

@[simp] theorem asks_store (addr size : Nat) (data : Memory) (post : Unit → World → Prop) :
    Asks refused ok (store addr size data) w post ↔
      post () { w.touch addr size with memory := copy data 0 w.memory addr size } := Iff.rfl

@[simp] theorem asks_fault (post : α → World → Prop) :
    Asks refused ok .fault w post ↔ True := Iff.rfl

@[simp] theorem asks_bind (p : Prog α) (f : α → Prog β) (post : β → World → Prop) :
    Asks refused ok (p >>= f) w post ↔
      Asks refused ok p w fun a w' => Asks refused ok (f a) w' post := by
  induction p generalizing w with
  | ret value => exact Iff.rfl
  | readSectors sector count next ih =>
    exact and_congr_right' (and_congr (imp_congr_right fun _ => ih none w) (ih _ w))
  | writeSectors sector count data next ih => exact and_congr (ih false w) (ih true _)
  | load addr size next ih => exact ih _ _
  | store addr size data next ih => exact ih _
  | alloc next ih => exact ih _ _
  | fault => exact Iff.rfl

end requests

theorem asks_mono {refused : Nat → Prop} {ok : Nat → Nat → Prop} {p : Prog α} {w : World}
    {post other : α → World → Prop} (h : Asks refused ok p w post)
    (weaker : ∀ a w', post a w' → other a w') : Asks refused ok p w other := by
  induction p generalizing w with
  | ret value => exact weaker value w h
  | readSectors sector count next ih =>
    exact ⟨h.1, fun refusal => ih none (h.2.1 refusal), ih _ h.2.2⟩
  | writeSectors sector count data next ih => exact ⟨ih false h.1, ih true h.2⟩
  | load addr size next ih => exact ih _ h
  | store addr size data next ih => exact ih h
  | alloc next ih => exact ih _ h
  | fault => trivial

/-- Every range of sectors that a run from a world writes is allowed, up to its end or to a fault,
    and the result is as wanted. -/
def Puts (ok : Nat → Nat → Prop) : Prog α → World → (α → World → Prop) → Prop
  | .ret value, w, post => post value w
  | .readSectors sector _ next, w, post => Puts ok (next (some (w.sectors sector))) w post
  | .writeSectors sector count data next, w, post =>
    ok sector count ∧ Puts ok (next true) (w.putSectors sector count data) post
  | .load addr size next, w, post => Puts ok (next w.memory) (w.touch addr size) post
  | .store addr size data next, w, post =>
    Puts ok next { w.touch addr size with memory := copy data 0 w.memory addr size } post
  | .alloc next, w, post =>
    Puts ok (next (w.fresh.headD fun _ => 0)) { w with fresh := w.fresh.tail } post
  | .fault, _, _ => True

@[simp] theorem puts_pure (ok : Nat → Nat → Prop) (w : World) (value : α)
    (post : α → World → Prop) : Puts ok (pure value) w post ↔ post value w := Iff.rfl

@[simp] theorem puts_fault (ok : Nat → Nat → Prop) (w : World) (post : α → World → Prop) :
    Puts ok .fault w post ↔ True := Iff.rfl

@[simp] theorem puts_alloc (ok : Nat → Nat → Prop) (w : World) (post : Memory → World → Prop) :
    Puts ok alloc w post ↔ post (w.fresh.headD fun _ => 0) { w with fresh := w.fresh.tail } :=
  Iff.rfl

@[simp] theorem puts_bind (ok : Nat → Nat → Prop) (p : Prog α) (f : α → Prog β) (w : World)
    (post : β → World → Prop) :
    Puts ok (p >>= f) w post ↔ Puts ok p w fun a w' => Puts ok (f a) w' post := by
  induction p generalizing w with
  | ret value => exact Iff.rfl
  | readSectors sector count next ih => exact ih _ w
  | writeSectors sector count data next ih => exact and_congr_right' (ih true _)
  | load addr size next ih => exact ih _ _
  | store addr size data next ih => exact ih _
  | alloc next ih => exact ih _ _
  | fault => exact Iff.rfl

theorem puts_run {ok : Nat → Nat → Prop} {p : Prog α} {w w' : World} {a : α}
    {post : α → World → Prop} (ran : run p w = some (a, w')) :
    Puts ok p w post ↔ Puts ok p w (fun _ _ => True) ∧ post a w' := by
  induction p generalizing w with
  | ret value =>
    cases ran
    exact ⟨fun done => ⟨trivial, done⟩, And.right⟩
  | readSectors sector count next ih => exact ih _ ran
  | writeSectors sector count data next ih =>
    exact (and_congr_right' (ih true ran)).trans and_assoc.symm
  | load addr size next ih => exact ih _ ran
  | store addr size data next ih => exact ih ran
  | alloc next ih => exact ih _ ran
  | fault => cases ran

theorem puts_of_always {touch ok : Nat → Nat → Prop} {p : Prog α} {w : World} {post : α → Prop}
    (h : Always touch ok p post) : Puts ok p w fun _ _ => True := by
  induction p generalizing w with
  | ret value => trivial
  | readSectors sector count next ih => exact ih _ (h _)
  | writeSectors sector count data next ih => exact ⟨h.1, ih true (h.2 true)⟩
  | load addr size next ih => exact ih _ (h.2 _)
  | store addr size data next ih => exact ih h.2
  | alloc next ih => exact ih _ (h _)
  | fault => trivial

/-- The disk keeps the bytes of sectors that are not written. -/
theorem puts_frame {ok : Nat → Nat → Prop} {p : Prog α} {w w' : World} {a : α}
    {post : α → World → Prop} (h : Puts ok p w post) (ran : run p w = some (a, w')) {x : Nat}
    (outside : ∀ sector count, ok sector count →
      ¬ (512 * sector ≤ x ∧ x < 512 * sector + 512 * count)) : post a w' ∧ w'.disk x = w.disk x := by
  induction p generalizing w with
  | ret value =>
    cases ran
    exact ⟨h, rfl⟩
  | readSectors sector count next ih => exact ih _ h ran
  | writeSectors sector count data next ih =>
    obtain ⟨result, kept⟩ := ih true h.2 ran
    rw [kept]
    exact ⟨result, if_neg (outside sector count h.1)⟩
  | load addr size next ih => exact ih w.memory (w := w.touch addr size) h ran
  | store addr size data next ih =>
    exact ih (w := { w.touch addr size with memory := copy data 0 w.memory addr size }) h ran
  | alloc next ih => exact ih _ (w := { w with fresh := w.fresh.tail }) h ran
  | fault => cases ran

/-- Every range of memory that a run from a world uses through pointers is allowed, up to its end
    or to a fault. -/
def Touches (ok : Nat → Nat → Prop) : Prog α → World → Prop
  | .ret _, _ => True
  | .readSectors sector _ next, w => Touches ok (next (some (w.sectors sector))) w
  | .writeSectors sector count data next, w => Touches ok (next true) (w.putSectors sector count data)
  | .load addr size next, w => ok addr size ∧ Touches ok (next w.memory) (w.touch addr size)
  | .store addr size data next, w =>
    ok addr size ∧ Touches ok next { w.touch addr size with memory := copy data 0 w.memory addr size }
  | .alloc next, w => Touches ok (next (w.fresh.headD fun _ => 0)) { w with fresh := w.fresh.tail }
  | .fault, _ => True

@[simp] theorem touches_pure (ok : Nat → Nat → Prop) (w : World) (value : α) :
    Touches ok (pure value) w ↔ True := Iff.rfl

@[simp] theorem touches_fault (ok : Nat → Nat → Prop) (w : World) :
    Touches ok (.fault : Prog α) w ↔ True := Iff.rfl

@[simp] theorem touches_store_bind (ok : Nat → Nat → Prop) (w : World) (addr size : Nat)
    (data : Memory) (f : Unit → Prog β) : Touches ok (store addr size data >>= f) w ↔
      ok addr size ∧
        Touches ok (f ()) { w.touch addr size with memory := copy data 0 w.memory addr size } :=
  Iff.rfl

/-- What a program uses before another is all it uses, and the other starts where it ends. -/
theorem touches_bind (ok : Nat → Nat → Prop) (p : Prog α) (f : α → Prog β) (w : World) :
    Touches ok (p >>= f) w ↔
      Touches ok p w ∧ ∀ a w', run p w = some (a, w') → Touches ok (f a) w' := by
  induction p generalizing w with
  | ret value =>
    constructor
    · intro rest
      refine ⟨trivial, fun a w' ran => ?_⟩
      cases ran
      exact rest
    · exact fun both => both.2 value w rfl
  | readSectors sector count next ih => exact ih _ w
  | writeSectors sector count data next ih => exact ih true _
  | load addr size next ih => exact (and_congr_right' (ih _ _)).trans and_assoc.symm
  | store addr size data next ih => exact (and_congr_right' (ih _)).trans and_assoc.symm
  | alloc next ih => exact ih _ _
  | fault => exact ⟨fun _ => ⟨trivial, fun _ _ ran => by cases ran⟩, fun _ => trivial⟩

/-- The history of a run has only ranges that are allowed. -/
theorem touches_run {ok : Nat → Nat → Prop} {p : Prog α} {w w' : World} {a : α}
    (h : Touches ok p w) (ran : run p w = some (a, w')) (start : ∀ r ∈ w.touched, ok r.1 r.2) :
    ∀ r ∈ w'.touched, ok r.1 r.2 := by
  induction p generalizing w with
  | ret value =>
    cases ran
    exact start
  | readSectors sector count next ih => exact ih _ h ran start
  | writeSectors sector count data next ih => exact ih true h ran start
  | load addr size next ih => exact ih _ h.2 ran (all_grown start h.1)
  | store addr size data next ih => exact ih h.2 ran (all_grown start h.1)
  | alloc next ih => exact ih _ h ran start
  | fault => cases ran

theorem touches_of_always {touch put : Nat → Nat → Prop} {p : Prog α} {w : World} {post : α → Prop}
    (h : Always touch put p post) : Touches touch p w := by
  induction p generalizing w with
  | ret value => trivial
  | readSectors sector count next ih => exact ih _ (h _)
  | writeSectors sector count data next ih => exact ih true (h.2 true)
  | load addr size next ih => exact ⟨h.1, ih _ (h.2 _)⟩
  | store addr size data next ih => exact ⟨h.1, ih h.2⟩
  | alloc next ih => exact ih _ (h _)
  | fault => trivial

/-- A run on a device whose k-th transfer, counted from some number on, succeeds where ok k says
    so; none for a fault. -/
def runOn (ok : Nat → Bool) : Prog α → World → Nat → Option (α × World × Nat)
  | .ret value, w, k => some (value, w, k)
  | .readSectors sector _ next, w, k =>
    runOn ok (next (if ok k then some (w.sectors sector) else none)) w (k + 1)
  | .writeSectors sector count data next, w, k =>
    runOn ok (next (ok k)) (if ok k then w.putSectors sector count data else w) (k + 1)
  | .load addr size next, w, k => runOn ok (next w.memory) (w.touch addr size) k
  | .store addr size data next, w, k =>
    runOn ok next { w.touch addr size with memory := copy data 0 w.memory addr size } k
  | .alloc next, w, k =>
    runOn ok (next (w.fresh.headD fun _ => 0)) { w with fresh := w.fresh.tail } k
  | .fault, _, _ => none

theorem runOn_bind (ok : Nat → Bool) (p : Prog α) (f : α → Prog β) (w : World) (k : Nat) :
    runOn ok (p >>= f) w k = (runOn ok p w k).bind fun a => runOn ok (f a.1) a.2.1 a.2.2 := by
  induction p generalizing w k with
  | ret value => rfl
  | readSectors sector count next ih => exact ih _ _ _
  | writeSectors sector count data next ih => exact ih _ _ _
  | load addr size next ih => exact ih _ _ _
  | store addr size data next ih => exact ih _ _
  | alloc next ih => exact ih _ _ _
  | fault => rfl

/-- The disk keeps the bytes of sectors that may not be written, whichever transfers fail. -/
theorem runOn_frame {touch put : Nat → Nat → Prop} {p : Prog α} {post : α → Prop}
    (h : Always touch put p post) {ok : Nat → Bool} {w : World} {k : Nat} {r : α × World × Nat}
    (ran : runOn ok p w k = some r) {x : Nat} (outside : ∀ sector count, put sector count →
      ¬ (512 * sector ≤ x ∧ x < 512 * sector + 512 * count)) : r.2.1.disk x = w.disk x := by
  induction p generalizing w k with
  | ret value =>
    cases ran
    rfl
  | readSectors sector count next ih => exact ih _ (h _) ran
  | writeSectors sector count data next ih =>
    have kept := ih _ (h.2 _) ran
    rw [kept]
    cases ok k with
    | true => exact if_neg (outside sector count h.1)
    | false => rfl
  | load addr size next ih => exact ih w.memory (w := w.touch addr size) (h.2 w.memory) ran
  | store addr size data next ih =>
    exact ih (w := { w.touch addr size with memory := copy data 0 w.memory addr size }) h.2 ran
  | alloc next ih => exact ih _ (w := { w with fresh := w.fresh.tail }) (h _) ran
  | fault => cases ran

theorem bind_assoc_prog (p : Prog α) (f : α → Prog β) (g : β → Prog γ) :
    p >>= f >>= g = p >>= fun a => f a >>= g := by
  induction p with
  | ret value => rfl
  | readSectors sector count next ih => exact congrArg _ (funext ih)
  | writeSectors sector count data next ih => exact congrArg _ (funext ih)
  | load addr size next ih => exact congrArg _ (funext ih)
  | store addr size data next ih => exact congrArg _ ih
  | alloc next ih => exact congrArg _ (funext ih)
  | fault => rfl

end BlockProgram

import Q2os.BlockProgram
import Q2os.Run

/- Tasks that run programs on one device, one operation at a time in any order. A program comes in
   parts; some of them are exclusive, others write outside the guarded sectors only. -/
namespace Interleaving
open ByteMemory BlockProgram Run

variable {ι P ε α β : Type}

structure Parts (P ε : Type) where
  code : P → Prog P
  exclusive : P → Bool
  report : P → P → List ε

/- A task in a part: the rest of its code, its own memory and blocks, and its reports. -/
structure Task (P ε : Type) where
  part : P
  rest : Prog P
  memory : Memory
  fresh : List Memory
  log : List ε

structure State (ι P ε : Type) where
  disk : Memory
  tasks : ι → Task P ε

def operate : Prog α → World → Option (Prog α × World)
  | .ret _, _ => none
  | .readSectors sector _ next, w => some (next (some (w.sectors sector)), w)
  | .writeSectors sector count data next, w => some (next true, w.putSectors sector count data)
  | .load addr size next, w => some (next w.memory, w.touch addr size)
  | .store addr size data next, w =>
    some (next, { w.touch addr size with memory := copy data 0 w.memory addr size })
  | .alloc next, w => some (next (w.fresh.headD fun _ => 0), { w with fresh := w.fresh.tail })
  | .fault, _ => none

def Task.world (task : Task P ε) (disk : Memory) : World := ⟨disk, task.memory, task.fresh, [], []⟩

def Task.enter (parts : Parts P ε) (task : Task P ε) (next : P) : Task P ε :=
  { task with
    part := next
    rest := parts.code next
    log := parts.report task.part next ++ task.log }

def Task.after (task : Task P ε) (rest : Prog P) (w : World) : Task P ε :=
  { task with rest := rest, memory := w.memory, fresh := w.fresh }

section steps
variable [DecidableEq ι] (parts : Parts P ε)

/- The step of one task; none where its code has a fault. -/
def State.next (s : State ι P ε) (i : ι) : Option (State ι P ε) :=
  match (s.tasks i).rest with
  | .ret part => some { s with tasks := Function.update s.tasks i ((s.tasks i).enter parts part) }
  | rest => (operate rest ((s.tasks i).world s.disk)).map fun r =>
      ⟨r.2.disk, Function.update s.tasks i ((s.tasks i).after r.1 r.2)⟩

def Step (s : State ι P ε) (i : ι) (t : State ι P ε) : Prop := s.next parts i = some t

def State.logs (s : State ι P ε) (i : ι) : List ε := (s.tasks i).log

/-- At most one task is in an exclusive part. -/
def Alone (s : State ι P ε) : Prop :=
  ∀ i j, parts.exclusive (s.tasks i).part = true → parts.exclusive (s.tasks j).part = true → i = j

/-- A step enters the next part or does an operation. -/
theorem step_cases {s t : State ι P ε} {i : ι} (step : Step parts s i t) :
    (∃ part, (s.tasks i).rest = .ret part ∧
      t = { s with tasks := Function.update s.tasks i ((s.tasks i).enter parts part) }) ∨
    ∃ rest w, operate (s.tasks i).rest ((s.tasks i).world s.disk) = some (rest, w) ∧
      t = ⟨w.disk, Function.update s.tasks i ((s.tasks i).after rest w)⟩ := by
  unfold Step State.next at step
  split at step
  · rename_i part ends
    exact Or.inl ⟨part, ends, (Option.some.inj step).symm⟩
  · obtain ⟨⟨rest, w⟩, done, made⟩ := Option.map_eq_some_iff.mp step
    exact Or.inr ⟨rest, w, done, made.symm⟩

end steps

section rules
variable (guarded : Nat → Prop)

def Agree (disk disk' : Memory) : Prop := ∀ x, guarded (x / 512) → disk' x = disk x

/-- A program that runs beside others writes no guarded sector and gives what is wanted, whichever
    disks of those that it may see answer its reads. -/
def Follows (seen : Memory → Prop) : Prog α → (α → Prop) → Prop
  | .ret value, post => post value
  | .readSectors sector _ next, post =>
    ∀ disk, seen disk → Follows seen (next (some fun i => disk (512 * sector + i))) post
  | .writeSectors sector count _ next, post =>
    (∀ k < count, ¬ guarded (sector + k)) ∧ Follows seen (next true) post
  | .load _ _ next, post => ∀ memory, Follows seen (next memory) post
  | .store _ _ _ next, post => Follows seen next post
  | .alloc next, post => ∀ block, Follows seen (next block) post
  | .fault, _ => True

/-- A program that alone writes guarded sectors leaves every disk on its way fine for the others,
    and ends as wanted; reads show its guarded sectors and others whatever they are. -/
def Holds (fine : Memory → Prop) : Prog α → Memory → (α → Memory → Prop) → Prop
  | .ret value, disk, post => post value disk
  | .readSectors sector _ next, disk, post => ∀ disk', Agree guarded disk disk' →
      Holds fine (next (some fun i => disk' (512 * sector + i))) disk post
  | .writeSectors sector count data next, disk, post =>
    fine (copy data 0 disk (512 * sector) (512 * count)) ∧
      Holds fine (next true) (copy data 0 disk (512 * sector) (512 * count)) post
  | .load _ _ next, disk, post => ∀ memory, Holds fine (next memory) disk post
  | .store _ _ _ next, disk, post => Holds fine next disk post
  | .alloc next, disk, post => ∀ block, Holds fine (next block) disk post
  | .fault, _, _ => True

@[simp] theorem follows_pure (seen : Memory → Prop) (value : α) (post : α → Prop) :
    Follows guarded seen (pure value) post ↔ post value := Iff.rfl

@[simp] theorem follows_fault (seen : Memory → Prop) (post : α → Prop) :
    Follows guarded seen .fault post ↔ True := Iff.rfl

@[simp] theorem follows_alloc (seen : Memory → Prop) (post : Memory → Prop) :
    Follows guarded seen alloc post ↔ ∀ block, post block := Iff.rfl

@[simp] theorem follows_readSectors (seen : Memory → Prop) (sector count : Nat)
    (post : Option Memory → Prop) : Follows guarded seen (readSectors sector count) post ↔
      ∀ disk, seen disk → post (some fun i => disk (512 * sector + i)) := Iff.rfl

@[simp] theorem follows_writeSectors (seen : Memory → Prop) (sector count : Nat) (data : Memory)
    (post : Bool → Prop) : Follows guarded seen (writeSectors sector count data) post ↔
      (∀ k < count, ¬ guarded (sector + k)) ∧ post true := Iff.rfl

@[simp] theorem follows_bind (seen : Memory → Prop) (p : Prog α) (f : α → Prog β)
    (post : β → Prop) : Follows guarded seen (p >>= f) post ↔
      Follows guarded seen p fun a => Follows guarded seen (f a) post := by
  induction p with
  | ret value => exact Iff.rfl
  | readSectors sector count next ih => exact forall_congr' fun disk => imp_congr_right fun _ => ih _
  | writeSectors sector count data next ih => exact and_congr_right' (ih true)
  | load addr size next ih => exact forall_congr' fun memory => ih memory
  | store addr size data next ih => exact ih
  | alloc next ih => exact forall_congr' fun block => ih block
  | fault => exact Iff.rfl

@[simp] theorem holds_pure (fine : Memory → Prop) (value : α) (disk : Memory)
    (post : α → Memory → Prop) : Holds guarded fine (pure value) disk post ↔ post value disk :=
  Iff.rfl

@[simp] theorem holds_readSectors (fine : Memory → Prop) (sector count : Nat) (disk : Memory)
    (post : Option Memory → Memory → Prop) :
    Holds guarded fine (readSectors sector count) disk post ↔ ∀ disk', Agree guarded disk disk' →
      post (some fun i => disk' (512 * sector + i)) disk := Iff.rfl

@[simp] theorem holds_writeSectors (fine : Memory → Prop) (sector count : Nat) (data disk : Memory)
    (post : Bool → Memory → Prop) :
    Holds guarded fine (writeSectors sector count data) disk post ↔
      fine (copy data 0 disk (512 * sector) (512 * count)) ∧
        post true (copy data 0 disk (512 * sector) (512 * count)) := Iff.rfl

@[simp] theorem holds_bind (fine : Memory → Prop) (p : Prog α) (f : α → Prog β) (disk : Memory)
    (post : β → Memory → Prop) : Holds guarded fine (p >>= f) disk post ↔
      Holds guarded fine p disk fun a disk' => Holds guarded fine (f a) disk' post := by
  induction p generalizing disk with
  | ret value => exact Iff.rfl
  | readSectors sector count next ih =>
    exact forall_congr' fun disk' => imp_congr_right fun _ => ih _ disk
  | writeSectors sector count data next ih => exact and_congr_right' (ih true _)
  | load addr size next ih => exact forall_congr' fun memory => ih memory disk
  | store addr size data next ih => exact ih disk
  | alloc next ih => exact forall_congr' fun block => ih block disk
  | fault => exact Iff.rfl

end rules

section laws
variable {guarded : Nat → Prop}

theorem agree_refl (disk : Memory) : Agree guarded disk disk := fun _ _ => rfl

theorem Agree.trans {d e f : Memory} (first : Agree guarded d e) (second : Agree guarded e f) :
    Agree guarded d f := fun x inside => (second x inside).trans (first x inside)

theorem Agree.copied {d e : Memory} (same : Agree guarded d e) (data : Memory) (place size : Nat) :
    Agree guarded (copy data 0 d place size) (copy data 0 e place size) := by
  intro x inside
  simp only [copy]
  split
  · rfl
  · exact same x inside

theorem agree_copy (disk data : Memory) {sector count : Nat}
    (outside : ∀ k < count, ¬ guarded (sector + k)) :
    Agree guarded disk (copy data 0 disk (512 * sector) (512 * count)) := by
  intro x inside
  refine copy_outside _ _ _ _ _ _ ?_
  by_contra within
  have here := outside (x / 512 - sector) (by omega)
  have place : sector + (x / 512 - sector) = x / 512 := by omega
  rw [place] at here
  exact here inside

theorem follows_mono {seen : Memory → Prop} {p : Prog α} {post other : α → Prop}
    (h : Follows guarded seen p post) (weaker : ∀ a, post a → other a) :
    Follows guarded seen p other := by
  induction p with
  | ret value => exact weaker value h
  | readSectors sector count next ih => exact fun disk view => ih _ (h disk view)
  | writeSectors sector count data next ih => exact ⟨h.1, ih true h.2⟩
  | load addr size next ih => exact fun memory => ih memory (h memory)
  | store addr size data next ih => exact ih h
  | alloc next ih => exact fun block => ih block (h block)
  | fault => trivial

theorem holds_mono {fine : Memory → Prop} {p : Prog α} {disk : Memory}
    {post other : α → Memory → Prop} (h : Holds guarded fine p disk post)
    (weaker : ∀ a disk', post a disk' → other a disk') : Holds guarded fine p disk other := by
  induction p generalizing disk with
  | ret value => exact weaker value disk h
  | readSectors sector count next ih => exact fun disk' same => ih _ (h disk' same)
  | writeSectors sector count data next ih => exact ⟨h.1, ih true h.2⟩
  | load addr size next ih => exact fun memory => ih memory (h memory)
  | store addr size data next ih => exact ih h
  | alloc next ih => exact fun block => ih block (h block)
  | fault => trivial

/- What writes outside the guarded sectors whatever the device answers. -/
theorem follows_of_always {touch put : Nat → Nat → Prop} {seen : Memory → Prop} {p : Prog α}
    {post : α → Prop} (outside : ∀ sector count, put sector count →
      ∀ k < count, ¬ guarded (sector + k)) (h : Always touch put p post) :
    Follows guarded seen p post := by
  induction p with
  | ret value => exact h
  | readSectors sector count next ih => exact fun disk _ => ih _ (h _)
  | writeSectors sector count data next ih => exact ⟨outside sector count h.1, ih true (h.2 true)⟩
  | load addr size next ih => exact fun memory => ih memory (h.2 memory)
  | store addr size data next ih => exact ih h.2
  | alloc next ih => exact fun block => ih block (h block)
  | fault => trivial

theorem holds_of_always {touch put : Nat → Nat → Prop} {fine : Memory → Prop} {p : Prog α}
    {post : α → Prop} {disk : Memory} (outside : ∀ sector count, put sector count →
      ∀ k < count, ¬ guarded (sector + k)) (closed : ∀ d e, Agree guarded d e → fine d → fine e)
    (start : fine disk) (h : Always touch put p post) :
    Holds guarded fine p disk fun a disk' => Agree guarded disk disk' ∧ post a := by
  induction p generalizing disk with
  | ret value => exact ⟨agree_refl disk, h⟩
  | readSectors sector count next ih => exact fun disk' _ => ih _ start (h _)
  | writeSectors sector count data next ih =>
    have same := agree_copy disk data (outside sector count h.1)
    have still := closed _ _ same start
    exact ⟨still, holds_mono (ih true still (h.2 true)) fun a disk' rest =>
      ⟨same.trans rest.1, rest.2⟩⟩
  | load addr size next ih => exact fun memory => ih memory start (h.2 memory)
  | store addr size data next ih => exact ih start h.2
  | alloc next ih => exact fun block => ih block start (h block)
  | fault => trivial

theorem follows_operate {seen : Memory → Prop} {p q : Prog α} {post : α → Prop} {w w' : World}
    (h : Follows guarded seen p post) (view : seen w.disk) (done : operate p w = some (q, w')) :
    Agree guarded w.disk w'.disk ∧ Follows guarded seen q post := by
  cases p with
  | ret value => cases done
  | readSectors sector count next =>
    cases done
    exact ⟨agree_refl _, h _ view⟩
  | writeSectors sector count data next =>
    cases done
    exact ⟨agree_copy w.disk data h.1, h.2⟩
  | load addr size next =>
    cases done
    exact ⟨agree_refl _, h _⟩
  | store addr size data next =>
    cases done
    exact ⟨agree_refl _, h⟩
  | alloc next =>
    cases done
    exact ⟨agree_refl _, h _⟩
  | fault => cases done

theorem holds_operate {fine : Memory → Prop} {p q : Prog α} {post : α → Memory → Prop}
    {disk : Memory} {w w' : World} (h : Holds guarded fine p disk post)
    (same : Agree guarded disk w.disk) (done : operate p w = some (q, w')) :
    ∃ disk', Agree guarded disk' w'.disk ∧ Holds guarded fine q disk' post ∧
      (w'.disk = w.disk ∨ fine disk') := by
  cases p with
  | ret value => cases done
  | readSectors sector count next =>
    cases done
    exact ⟨disk, same, h _ same, Or.inl rfl⟩
  | writeSectors sector count data next =>
    cases done
    exact ⟨_, same.copied data _ _, h.2, Or.inr h.1⟩
  | load addr size next =>
    cases done
    exact ⟨disk, same, h _, Or.inl rfl⟩
  | store addr size data next =>
    cases done
    exact ⟨disk, same, h, Or.inl rfl⟩
  | alloc next =>
    cases done
    exact ⟨disk, same, h _, Or.inl rfl⟩
  | fault => cases done

end laws

/- What holds between exclusive parts, what a task sees on the disk by its reports, and what it
   knows when it comes to a part. -/
structure Terms (ι P ε : Type) where
  inv : Memory → (ι → List ε) → Prop
  view : ι → List ε → Memory → Prop
  knows : ι → List ε → P → Prop

section runs
variable [DecidableEq ι] (parts : Parts P ε) (guarded : Nat → Prop) (terms : Terms ι P ε)

/-- The parts keep to the terms. -/
structure Contract : Prop where
  inv_agree : ∀ disk disk' logs, Agree guarded disk disk' → terms.inv disk logs →
    terms.inv disk' logs
  view_agree : ∀ i log disk disk', Agree guarded disk disk' → terms.view i log disk →
    terms.view i log disk'
  views : ∀ disk logs, terms.inv disk logs → ∀ i, terms.view i (logs i) disk
  beside : ∀ i log part, parts.exclusive part = false → terms.knows i log part →
    Follows guarded (terms.view i log) (parts.code part) fun next =>
      parts.report part next = [] ∧ terms.knows i log next
  within : ∀ i logs part disk, parts.exclusive part = true → terms.knows i (logs i) part →
    terms.inv disk logs →
    Holds guarded (fun disk' => ∀ j, j ≠ i → terms.view j (logs j) disk') (parts.code part) disk
      fun next disk' =>
        terms.inv disk' (Function.update logs i (parts.report part next ++ logs i)) ∧
          terms.knows i (parts.report part next ++ logs i) next

/- The rest of a part that is not exclusive, and of one that is. -/
def Task.Calm (i : ι) (task : Task P ε) : Prop :=
  Follows guarded (terms.view i task.log) task.rest fun next =>
    parts.report task.part next = [] ∧ terms.knows i task.log next

def Task.Busy (i : ι) (logs : ι → List ε) (disk : Memory) (task : Task P ε) : Prop :=
  ∃ disk', Agree guarded disk' disk ∧
    Holds guarded (fun e => ∀ j, j ≠ i → terms.view j (logs j) e) task.rest disk' fun next e =>
      terms.inv e (Function.update logs i (parts.report task.part next ++ logs i)) ∧
        terms.knows i (parts.report task.part next ++ logs i) next

/-- The invariant of runs in which at most one task is in an exclusive part. -/
structure Sound (s : State ι P ε) : Prop where
  alone : Alone parts s
  calm : ∀ i, parts.exclusive (s.tasks i).part = false → (s.tasks i).Calm parts guarded terms i
  busy : ∀ i, parts.exclusive (s.tasks i).part = true →
    (s.tasks i).Busy parts guarded terms i s.logs s.disk
  views : ∀ i, parts.exclusive (s.tasks i).part = false → terms.view i (s.logs i) s.disk
  inv : (∀ i, parts.exclusive (s.tasks i).part = false) → terms.inv s.disk s.logs

variable {parts guarded terms}

theorem Task.Busy.agree {i : ι} {logs : ι → List ε} {disk disk' : Memory} {task : Task P ε}
    (busy : task.Busy parts guarded terms i logs disk) (same : Agree guarded disk disk') :
    task.Busy parts guarded terms i logs disk' := by
  obtain ⟨d, known, holds⟩ := busy
  exact ⟨d, known.trans same, holds⟩

theorem after_same (s : State ι P ε) (i : ι) (rest : Prog P) (w : World) :
    (∀ j, (Function.update s.tasks i ((s.tasks i).after rest w) j).part = (s.tasks j).part) ∧
      State.logs ⟨w.disk, Function.update s.tasks i ((s.tasks i).after rest w)⟩ = s.logs := by
  constructor
  · intro j
    by_cases here : j = i
    · rw [here, Function.update_self, Task.after]
    · rw [Function.update_of_ne here]
  · funext j
    by_cases here : j = i
    · rw [here]
      simp only [State.logs, Function.update_self, Task.after]
    · simp only [State.logs, Function.update_of_ne here]

theorem Sound.operated (contract : Contract parts guarded terms) {s : State ι P ε} {i : ι}
    {rest : Prog P} {w : World} (sound : Sound parts guarded terms s)
    (done : operate (s.tasks i).rest ((s.tasks i).world s.disk) = some (rest, w)) :
    Sound parts guarded terms ⟨w.disk, Function.update s.tasks i ((s.tasks i).after rest w)⟩ := by
  obtain ⟨part, logs⟩ := after_same s i rest w
  have alone : Alone parts ⟨w.disk, Function.update s.tasks i ((s.tasks i).after rest w)⟩ := by
    intro j k busy busy'
    dsimp only at busy busy'
    rw [part] at busy busy'
    exact sound.alone j k busy busy'
  cases inside : parts.exclusive (s.tasks i).part with
  | false =>
    obtain ⟨same, follows⟩ := follows_operate (w := (s.tasks i).world s.disk)
      (sound.calm i inside) (sound.views i inside) done
    refine ⟨alone, fun j calm => ?_, fun j busy => ?_, fun j calm => ?_, fun calm => ?_⟩
    · dsimp only at calm ⊢
      by_cases here : j = i
      · rw [here, Function.update_self]
        exact follows
      · rw [Function.update_of_ne here] at calm ⊢
        exact sound.calm j calm
    · dsimp only at busy ⊢
      rw [part] at busy
      have other : j ≠ i := by
        intro here
        rw [here, inside] at busy
        cases busy
      rw [logs, Function.update_of_ne other]
      exact (sound.busy j busy).agree same
    · dsimp only at calm ⊢
      rw [part] at calm
      rw [logs]
      exact contract.view_agree _ _ _ _ same (sound.views j calm)
    · rw [logs]
      refine contract.inv_agree _ _ _ same (sound.inv fun j => ?_)
      have known := calm j
      dsimp only at known
      rwa [part] at known
  | true =>
    obtain ⟨disk, known, holds⟩ := sound.busy i inside
    obtain ⟨disk', known', holds', fine⟩ := holds_operate holds known done
    refine ⟨alone, fun j calm => ?_, fun j busy => ?_, fun j calm => ?_, fun calm => ?_⟩
    · dsimp only at calm ⊢
      rw [part] at calm
      have other : j ≠ i := by
        intro here
        rw [here, inside] at calm
        cases calm
      rw [Function.update_of_ne other]
      exact sound.calm j calm
    · dsimp only at busy ⊢
      rw [part] at busy
      rw [logs, sound.alone j i busy inside, Function.update_self]
      exact ⟨disk', known', holds'⟩
    · dsimp only at calm ⊢
      rw [part] at calm
      rw [logs]
      rcases fine with kept | fine
      · rw [kept]
        exact sound.views j calm
      · have other : j ≠ i := by
          intro here
          rw [here, inside] at calm
          cases calm
        exact contract.view_agree _ _ _ _ known' (fine j other)
    · have known := calm i
      dsimp only at known
      rw [part, inside] at known
      cases known

def State.reported (parts : Parts P ε) (s : State ι P ε) (i : ι) (next : P) : ι → List ε :=
  Function.update s.logs i (parts.report (s.tasks i).part next ++ s.logs i)

theorem logs_entered (s : State ι P ε) (i : ι) (next : P) :
    State.logs ⟨s.disk, Function.update s.tasks i ((s.tasks i).enter parts next)⟩ =
      s.reported parts i next := by
  funext j
  by_cases here : j = i
  · rw [here]
    simp only [State.logs, State.reported, Function.update_self, Task.enter]
  · simp only [State.logs, State.reported, Function.update_of_ne here]

structure Left (parts : Parts P ε) (guarded : Nat → Prop) (terms : Terms ι P ε) (s : State ι P ε)
    (i : ι) (next : P) : Prop where
  knows : terms.knows i (s.reported parts i next i) next
  views : ∀ j, (j ≠ i → parts.exclusive (s.tasks j).part = false) →
    terms.view j (s.reported parts i next j) s.disk
  inv : (∀ j, j ≠ i → parts.exclusive (s.tasks j).part = false) →
    terms.inv s.disk (s.reported parts i next)
  busy : ∀ j, j ≠ i → parts.exclusive (s.tasks j).part = true →
    (s.tasks j).Busy parts guarded terms j (s.reported parts i next) s.disk

theorem Sound.left (contract : Contract parts guarded terms) {s : State ι P ε} {i : ι} {next : P}
    (sound : Sound parts guarded terms s) (ends : (s.tasks i).rest = .ret next) :
    Left parts guarded terms s i next := by
  cases inside : parts.exclusive (s.tasks i).part with
  | false =>
    have calm := sound.calm i inside
    unfold Task.Calm at calm
    rw [ends] at calm
    obtain ⟨silent, knows⟩ := calm
    have logs : s.reported parts i next = s.logs := by
      unfold State.reported
      rw [silent, List.nil_append, Function.update_eq_self]
    refine ⟨?_, fun j calm => ?_, fun calm => ?_, fun j _ busy => ?_⟩
    · rw [logs]
      exact knows
    · rw [logs]
      by_cases here : j = i
      · rw [here]
        exact sound.views i inside
      · exact sound.views j (calm here)
    · rw [logs]
      refine sound.inv fun j => ?_
      by_cases here : j = i
      · rw [here]
        exact inside
      · exact calm j here
    · rw [logs]
      exact sound.busy j busy
  | true =>
    obtain ⟨disk, known, holds⟩ := sound.busy i inside
    rw [ends] at holds
    obtain ⟨inv, knows⟩ := holds
    have inv' := contract.inv_agree _ _ _ known inv
    refine ⟨?_, fun j _ => contract.views _ _ inv' j, fun _ => inv', fun j other busy => ?_⟩
    · unfold State.reported
      rw [Function.update_self]
      exact knows
    · exact absurd (sound.alone j i busy inside) other

theorem Sound.entered (contract : Contract parts guarded terms) {s : State ι P ε} {i : ι} {next : P}
    (sound : Sound parts guarded terms s) (ends : (s.tasks i).rest = .ret next)
    (alone : Alone parts
      ⟨s.disk, Function.update s.tasks i ((s.tasks i).enter parts next)⟩) :
    Sound parts guarded terms
      ⟨s.disk, Function.update s.tasks i ((s.tasks i).enter parts next)⟩ := by
  have left := sound.left contract ends
  have logs : State.logs ⟨s.disk, Function.update s.tasks i ((s.tasks i).enter parts next)⟩ =
      s.reported parts i next := logs_entered s i next
  have log : parts.report (s.tasks i).part next ++ (s.tasks i).log =
      s.reported parts i next i := by
    unfold State.reported
    rw [Function.update_self]
    rfl
  refine ⟨alone, fun j calm => ?_, fun j busy => ?_, fun j calm => ?_, fun calm => ?_⟩
  · dsimp only at calm ⊢
    by_cases here : j = i
    · rw [here, Function.update_self] at calm ⊢
      simp only [Task.Calm, Task.enter, log] at calm ⊢
      exact contract.beside i _ next calm left.knows
    · rw [Function.update_of_ne here] at calm ⊢
      exact sound.calm j calm
  · rw [logs]
    have others : ∀ k, k ≠ j → parts.exclusive
        (Function.update s.tasks i ((s.tasks i).enter parts next) k).part = false := by
      intro k other
      by_contra busy'
      exact other (alone k j (Bool.not_eq_false _ ▸ busy') busy)
    dsimp only at busy ⊢
    by_cases here : j = i
    · rw [here] at others
      rw [here, Function.update_self] at busy ⊢
      refine ⟨s.disk, agree_refl _, ?_⟩
      refine contract.within i _ next s.disk busy left.knows (left.inv fun k other => ?_)
      have calm := others k other
      rwa [Function.update_of_ne other] at calm
    · rw [Function.update_of_ne here] at busy ⊢
      exact left.busy j here busy
  · rw [logs]
    dsimp only at calm ⊢
    refine left.views j fun other => ?_
    rwa [Function.update_of_ne other] at calm
  · rw [logs]
    refine left.inv fun j other => ?_
    have known := calm j
    dsimp only at known
    rwa [Function.update_of_ne other] at known

theorem Sound.start (contract : Contract parts guarded terms) {s : State ι P ε}
    (calm : ∀ i, parts.exclusive (s.tasks i).part = false)
    (begins : ∀ i, (s.tasks i).rest = parts.code (s.tasks i).part)
    (knows : ∀ i, terms.knows i (s.logs i) (s.tasks i).part) (inv : terms.inv s.disk s.logs) :
    Sound parts guarded terms s := by
  refine ⟨fun i j busy => ?_, fun i _ => ?_, fun i busy => ?_,
    fun i _ => contract.views _ _ inv i, fun _ => inv⟩
  · rw [calm i] at busy
    cases busy
  · unfold Task.Calm
    rw [begins i]
    exact contract.beside i _ _ (calm i) (knows i)
  · rw [calm i] at busy
    cases busy

theorem Sound.step (contract : Contract parts guarded terms) {s t : State ι P ε} {i : ι}
    (sound : Sound parts guarded terms s)
    (step : Meeting (fun _ _ t => Alone parts t) (Step parts) s i t) :
    Sound parts guarded terms t := by
  obtain ⟨step, alone⟩ := step
  rcases step_cases parts step with ⟨next, ends, made⟩ | ⟨rest, w, done, made⟩
  · rw [made] at alone ⊢
    exact sound.entered contract ends alone
  · rw [made]
    exact sound.operated contract done

theorem Sound.run (contract : Contract parts guarded terms) {s t : State ι P ε} {es : List ι}
    (sound : Sound parts guarded terms s)
    (ran : Steps (Meeting (fun _ _ t => Alone parts t) (Step parts)) s es t) :
    Sound parts guarded terms t :=
  invariant_of_step (fun _ _ _ sound step => sound.step contract step) ran sound

end runs

end Interleaving

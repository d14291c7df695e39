/- Runs of a labelled transition relation. A run is a finite sequence of steps; a state
   is reached when some run ends in it, so a fact about the last state of every run is a
   fact about every state of every run. -/
namespace Run

variable {State Event : Type} {step : State → Event → State → Prop}

inductive Steps (step : State → Event → State → Prop) : State → List Event → State → Prop where
  | nil (s : State) : Steps step s [] s
  | cons {s m t : State} {e : Event} {es : List Event}
      (first : step s e m) (rest : Steps step m es t) : Steps step s (e :: es) t

/- The steps that are taken from a state and an event allowed there. -/
def Guarded (allowed : State → Event → Prop) (step : State → Event → State → Prop) :
    State → Event → State → Prop :=
  fun s e t => step s e t ∧ allowed s e

/- The steps whose outcome has a given property. -/
def Meeting (good : State → Event → State → Prop) (step : State → Event → State → Prop) :
    State → Event → State → Prop :=
  fun s e t => step s e t ∧ good s e t

theorem steps_single {s t : State} {e : Event} (first : step s e t) :
    Steps step s [e] t :=
  .cons first (.nil t)

theorem steps_append {s m t : State} {es fs : List Event}
    (first : Steps step s es m) (rest : Steps step m fs t) : Steps step s (es ++ fs) t := by
  induction first with
  | nil => exact rest
  | cons head tail ih => exact .cons head (ih rest)

theorem steps_mono {other : State → Event → State → Prop} {s t : State} {es : List Event}
    (weaker : ∀ s e t, step s e t → other s e t) (run : Steps step s es t) :
    Steps other s es t := by
  induction run with
  | nil => exact .nil _
  | cons head tail ih => exact .cons (weaker _ _ _ head) ih

theorem invariant_of_step {inv : State → Prop}
    (keep : ∀ s e t, inv s → step s e t → inv t)
    {s t : State} {es : List Event} (run : Steps step s es t) (start : inv s) : inv t := by
  induction run with
  | nil => exact start
  | cons head tail ih => exact ih (keep _ _ _ start head)

/- An invariant that holds along the run lets each step be judged from states meeting it. -/
theorem steps_meeting {inv : State → Prop} {good : State → Event → State → Prop}
    (keep : ∀ s e t, inv s → step s e t → inv t ∧ good s e t)
    {s t : State} {es : List Event} (run : Steps step s es t) (start : inv s) :
    Steps (Meeting good step) s es t := by
  induction run with
  | nil => exact .nil _
  | cons head tail ih =>
    obtain ⟨next, fine⟩ := keep _ _ _ start head
    exact .cons ⟨head, fine⟩ (ih next)

/- Where the condition is exact at every step that starts in the invariant, it is exact for
   whole runs. -/
theorem steps_meeting_iff {inv : State → Prop} {good : State → Event → State → Prop}
    {allowed : State → Event → Prop}
    (exact : ∀ s e t, inv s → step s e t → (good s e t ↔ allowed s e))
    (keep : ∀ s e t, inv s → step s e t → good s e t → inv t)
    {s t : State} {es : List Event} (start : inv s) :
    Steps (Meeting good step) s es t ↔ Steps (Guarded allowed step) s es t := by
  constructor
  · intro run
    induction run with
    | nil => exact .nil _
    | cons head tail ih =>
      exact .cons ⟨head.1, (exact _ _ _ start head.1).mp head.2⟩
        (ih (keep _ _ _ start head.1 head.2))
  · intro run
    induction run with
    | nil => exact .nil _
    | cons head tail ih =>
      have good := (exact _ _ _ start head.1).mpr head.2
      exact .cons ⟨head.1, good⟩ (ih (keep _ _ _ start head.1 good))

def exec (next : State → Event → Option State) : State → List Event → Option State
  | s, [] => some s
  | s, e :: es => (next s e).bind fun t => exec next t es

theorem steps_of_exec {next : State → Event → Option State} {s t : State} {es : List Event}
    (ran : exec next s es = some t) : Steps (fun s e t => next s e = some t) s es t := by
  induction es generalizing s with
  | nil =>
    cases ran
    exact .nil _
  | cons e es ih =>
    obtain ⟨m, first, rest⟩ := Option.bind_eq_some_iff.mp ran
    exact .cons first (ih rest)

theorem steps_of_exec_all {next : State → Event → Option State} {ok : Event → Prop} {s t : State}
    {es : List Event} (ran : exec next s es = some t) (all : ∀ e ∈ es, ok e) :
    Steps (fun s e t => next s e = some t ∧ ok e) s es t := by
  induction es generalizing s with
  | nil =>
    cases ran
    exact .nil _
  | cons e es ih =>
    obtain ⟨m, first, rest⟩ := Option.bind_eq_some_iff.mp ran
    exact .cons ⟨first, all e (List.mem_cons_self ..)⟩
      (ih rest fun e' member => all e' (List.mem_cons_of_mem _ member))

/- From the states of an invariant a step function may know that its steps are taken. -/
theorem steps_of_exec_within {inv : State → Prop} {next : State → Event → Option State}
    (keep : ∀ s e t, inv s → step s e t → inv t)
    (takes : ∀ s e t, inv s → next s e = some t → step s e t) {s t : State} {es : List Event}
    (start : inv s) (ran : exec next s es = some t) : Steps step s es t := by
  induction es generalizing s with
  | nil =>
    cases ran
    exact .nil _
  | cons e es ih =>
    obtain ⟨m, first, rest⟩ := Option.bind_eq_some_iff.mp ran
    have taken := takes _ _ _ start first
    exact .cons taken (ih (keep _ _ _ start taken) rest)

theorem exec_of_steps {next : State → Event → Option State} {s t : State} {es : List Event}
    (run : Steps (fun s e t => next s e = some t) s es t) : exec next s es = some t := by
  induction run with
  | nil => rfl
  | cons head tail ih => exact Option.bind_eq_some_iff.mpr ⟨_, head, ih⟩

/- A run whose events are picked by the states that it comes to. -/
def pick (next : State → Event → Option State) :
    State → List (State → Option Event) → Option (List Event × State)
  | s, [] => some ([], s)
  | s, choice :: choices => do
    let e ← choice s
    let m ← next s e
    let (es, t) ← pick next m choices
    return (e :: es, t)

theorem steps_of_pick {next : State → Event → Option State} {s t : State} {es : List Event}
    {choices : List (State → Option Event)} (takes : ∀ s e t, next s e = some t → step s e t)
    (picked : pick next s choices = some (es, t)) : Steps step s es t := by
  induction choices generalizing s es with
  | nil =>
    cases picked
    exact .nil _
  | cons choice choices ih =>
    obtain ⟨e, _, picked⟩ := Option.bind_eq_some_iff.mp picked
    obtain ⟨m, first, picked⟩ := Option.bind_eq_some_iff.mp picked
    obtain ⟨⟨rest, last⟩, later, made⟩ := Option.bind_eq_some_iff.mp picked
    cases made
    exact .cons (takes _ _ _ first) (ih later)

/- Where each state has at most one next state, a run that cannot go on passes through every
   state that another run reaches. -/
theorem steps_through (one : ∀ s e f t u, step s e t → step s f u → t = u)
    {s m t : State} {es fs : List Event} (part : Steps step s es m) (whole : Steps step s fs t)
    (last : ∀ e u, ¬ step t e u) : ∃ gs, Steps step m gs t := by
  induction part generalizing fs with
  | nil => exact ⟨fs, whole⟩
  | cons head tail ih =>
    cases whole with
    | nil => exact absurd head (last _ _)
    | cons head' tail' =>
      have same := one _ _ _ _ _ head head'
      subst same
      exact ih tail'

/- An event that counts takes one off the rank and no other event adds to it: more of them than the
   rank allows for lead through the goal. -/
theorem goal_of_rank {inv goal : State → Prop} {rank : State → Nat} {counts : Event → Bool}
    (keep : ∀ s e t, inv s → step s e t →
      goal t ∨ inv t ∧ rank t + (if counts e then 1 else 0) ≤ rank s)
    {s t : State} {es : List Event} (run : Steps step s es t) (start : inv s)
    (many : rank s < es.countP counts) :
    ∃ gs hs m, es = gs ++ hs ∧ Steps step s gs m ∧ goal m := by
  induction run with
  | nil => simp at many
  | @cons s m t e es first rest ih =>
    rcases keep s e m start first with reached | ⟨next, less⟩
    · exact ⟨[e], es, m, rfl, steps_single first, reached⟩
    · have left : rank m < es.countP counts := by
        rw [List.countP_cons] at many
        omega
      obtain ⟨gs, hs, n, rfl, path, reached⟩ := ih next left
      exact ⟨e :: gs, hs, n, rfl, .cons first path, reached⟩

/- A run over two lists of events passes through a state between them. -/
theorem steps_split {s t : State} {es fs : List Event} (run : Steps step s (es ++ fs) t) :
    ∃ m, Steps step s es m ∧ Steps step m fs t := by
  induction es generalizing s with
  | nil => exact ⟨s, .nil s, run⟩
  | cons e es ih =>
    cases run with
    | cons head tail =>
      obtain ⟨m, first, rest⟩ := ih tail
      exact ⟨m, .cons head first, rest⟩

end Run

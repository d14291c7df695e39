/- Programs over a state that may run out of rounds, and what holds at the end of a run that
   does not. -/
namespace StateRuns
variable {σ α β : Type}

/- The program ends from a state, with a result and a last state of which post holds. -/
def Ends (m : StateT σ Option α) (s : σ) (post : α → σ → Prop) : Prop :=
  ∃ a s', m s = some (a, s') ∧ post a s'

section rules
variable {m : StateT σ Option α} {f : α → StateT σ Option β} {s : σ}
  {post : α → σ → Prop} {goal : β → σ → Prop}

theorem bind_run : (m >>= f) s = (m s).bind fun p => f p.1 p.2 := rfl

theorem ends_pure {a : α} (holds : post a s) : Ends (pure a : StateT σ Option α) s post :=
  ⟨a, s, rfl, holds⟩

theorem ends_mono {wide : α → σ → Prop} (first : Ends m s post)
    (weaker : ∀ a s', post a s' → wide a s') : Ends m s wide := by
  obtain ⟨a, s', ran, holds⟩ := first
  exact ⟨a, s', ran, weaker a s' holds⟩

theorem ends_bind (first : Ends m s fun a s' => Ends (f a) s' goal) : Ends (m >>= f) s goal := by
  obtain ⟨a, s', ran, b, s'', ran', holds⟩ := first
  refine ⟨b, s'', ?_, holds⟩
  rw [bind_run, ran]
  exact ran'

theorem ends_then (first : Ends m s post) (rest : ∀ a s', post a s' → Ends (f a) s' goal) :
    Ends (m >>= f) s goal := ends_bind (ends_mono first rest)

theorem ends_ite {c : Prop} [Decidable c] {m' : StateT σ Option α}
    (yes : c → Ends m s post) (no : ¬ c → Ends m' s post) : Ends (if c then m else m') s post := by
  by_cases here : c
  · rw [if_pos here]
    exact yes here
  · rw [if_neg here]
    exact no here

end rules

end StateRuns

import Mathlib.Logic.Basic

/-! Two programs with states and errors that stay in step, seen through a map of the states. -/
namespace CommonProject.Foundations
variable {σ τ ε β γ : Type} {f : σ → τ} {bad : ε → Prop}

/-- On the image of a state, `q` does what `p` does, unless `p` stops with a bad error. -/
def Lockstep (f : σ → τ) (bad : ε → Prop) (p : StateT σ (Except ε) β)
    (q : StateT τ (Except ε) β) : Prop :=
  ∀ s, (∃ e, bad e ∧ p.run s = .error e) ∨ q.run (f s) = (p.run s).map fun r => (r.1, f r.2)

section Rules
variable {p p' : StateT σ (Except ε) β} {q q' : StateT τ (Except ε) β} {s s' : σ} {a : β}

theorem Lockstep.of_eq (h : ∀ s, q.run (f s) = (p.run s).map fun r => (r.1, f r.2)) :
    Lockstep f bad p q := fun s => .inr (h s)

theorem Lockstep.run_eq (h : Lockstep f bad p q) (hs : ∀ e, p.run s = .error e → ¬ bad e) :
    q.run (f s) = (p.run s).map fun r => (r.1, f r.2) := by
  rcases h s with ⟨e, hbad, he⟩ | heq
  · exact absurd hbad (hs e he)
  · exact heq

theorem Lockstep.run_ok (h : Lockstep f bad p q) (hp : p.run s = .ok (a, s')) :
    q.run (f s) = .ok (a, f s') := by
  rw [h.run_eq (by simp [hp]), hp]
  rfl

theorem Lockstep.pure (a : β) : Lockstep f bad (pure a) (pure a) :=
  .of_eq fun _ => rfl

theorem Lockstep.throw (e : ε) :
    Lockstep f bad (throw e : StateT σ (Except ε) β) (throw e) := .of_eq fun _ => rfl

theorem Lockstep.bind {g : β → StateT σ (Except ε) γ} {g' : β → StateT τ (Except ε) γ}
    (h : Lockstep f bad p q) (hg : ∀ a, Lockstep f bad (g a) (g' a)) :
    Lockstep f bad (p >>= g) (q >>= g') := by
  intro s
  rw [StateT.run_bind, StateT.run_bind]
  rcases h s with ⟨e, hbad, he⟩ | heq
  · exact .inl ⟨e, hbad, by rw [he]; rfl⟩
  · rw [heq]
    cases p.run s with
    | error e => exact .inr rfl
    | ok r => exact hg r.1 r.2

theorem Lockstep.ite {c : Prop} [Decidable c] (h : Lockstep f bad p q)
    (h' : Lockstep f bad p' q') : Lockstep f bad (if c then p else p') (if c then q else q') := by
  split
  · exact h
  · exact h'

end Rules
end CommonProject.Foundations

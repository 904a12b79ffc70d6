import CommonProject.RBTree.Code

/-! The loops of `rbtree.c` have no bound. A program with a bound on its turns that comes to an
end gives the result of all larger bounds. -/
namespace CommonProject.RBTree
variable {α W ρ β γ : Type}

def Stable (p : Nat → Prog α W ρ β) : Prop :=
  ∀ ⦃k k' m r⦄, k ≤ k' → (p k).run m = .ok r → (p k').run m = .ok r

/-- More turns change nothing but that the program is cut off. -/
def Settled (p : Nat → Prog α W ρ β) : Prop :=
  ∀ ⦃k k' m⦄, k ≤ k' → (p k).run m ≠ .error .outOfFuel → (p k').run m = (p k).run m

theorem Settled.stable {p : Nat → Prog α W ρ β} (h : Settled p) : Stable p := by
  intro k k' m r hk hr
  rw [h hk (by simp [hr]), hr]

theorem Settled.const (p : Prog α W ρ β) : Settled fun _ => p := fun _ _ _ _ _ => rfl

theorem Settled.bind {p : Nat → Prog α W ρ β} {f : Nat → β → Prog α W ρ γ} (hp : Settled p)
    (hf : ∀ a, Settled fun k => f k a) : Settled fun k => p k >>= f k := by
  intro k k' m hk h
  rw [StateT.run_bind] at h ⊢
  rw [StateT.run_bind]
  have hfirst : (p k).run m ≠ .error .outOfFuel := by
    intro herror
    rw [herror] at h
    exact h rfl
  rw [hp hk hfirst]
  cases hm : (p k).run m with
  | error e => rfl
  | ok a =>
    rw [hm] at h
    exact hf a.1 hk h

theorem Settled.ite {c : Prop} [Decidable c] {p q : Nat → Prog α W ρ β} (hp : Settled p)
    (hq : Settled q) : Settled fun k => if c then p k else q k := by
  split
  · exact hp
  · exact hq

/-- A loop whose turn either ends it or goes on from another point. -/
theorem Settled.loop {δ : Type} {F : Nat → δ → Prog α W ρ β} (body : δ → Prog α W ρ γ)
    (next : Nat → δ → γ → Prog α W ρ β) (hzero : ∀ a, F 0 a = throw .outOfFuel)
    (hsucc : ∀ k a, F (k + 1) a = body a >>= next k a)
    (hnext : ∀ a b, (∃ p, ∀ k, next k a b = p) ∨ ∃ a', ∀ k, next k a b = F k a') (a : δ) :
    Settled fun k => F k a := by
  intro k
  induction k generalizing a with
  | zero =>
    intro k' m _ h
    simp only [hzero] at h
    exact absurd rfl h
  | succ k ih =>
    intro k' m hk h
    obtain ⟨k', rfl⟩ := Nat.exists_eq_add_one_of_ne_zero (Nat.ne_zero_of_lt hk)
    simp only [hsucc, StateT.run_bind] at h ⊢
    cases hm : (body a).run m with
    | error e => rfl
    | ok b =>
      rw [hm] at h
      change (next k' a b.1).run b.2 = (next k a b.1).run b.2
      have h' : (next k a b.1).run b.2 ≠ .error .outOfFuel := h
      rcases hnext a b.1 with ⟨p, hp⟩ | ⟨a', ha'⟩
      · rw [hp, hp]
      · rw [ha'] at h'
        rw [ha', ha']
        exact ih a' (Nat.le_of_succ_le_succ hk) h'

theorem settled_successorLoop (successor tmp : Option α) :
    Settled fun k => (successorLoop k successor tmp : Prog α W ρ _) := by
  refine Settled.loop (F := fun k a => successorLoop k a.1 a.2) (fun a => loadLeft a.2)
    (fun k a b => if b.isSome then successorLoop k a.2 b else pure a) (fun _ => rfl)
    (fun _ _ => rfl) ?_ (successor, tmp)
  intro a b
  cases b with
  | none => exact .inl ⟨_, fun _ => rfl⟩
  | some x => exact .inr ⟨(a.2, some x), fun _ => rfl⟩

section Turns
variable {m m' : Memory α W ρ} {p : Prog α W ρ (Turn α)}
  {next : Option α × Option α → Prog α W ρ Unit} {a : Option α × Option α}

/-- The turn breaks. -/
theorem run_turn_none (h : p.run m = pure (none, m')) :
    (p >>= fun b => b.elim (pure ()) next).run m = pure ((), m') := by
  rw [StateT.run_bind, h, pure_bind]
  rfl

/-- The turn continues. -/
theorem run_turn_some (h : p.run m = pure (some a, m')) :
    (p >>= fun b => b.elim (pure ()) next).run m = (next a).run m' := by
  rw [StateT.run_bind, h, pure_bind]
  rfl

private theorem Settled.turns {F : Nat → Option α → Option α → Prog α W ρ Unit}
    {turn : Option α → Option α → Prog α W ρ (Turn α)}
    (hzero : ∀ node parent, F 0 node parent = throw .outOfFuel)
    (hsucc : ∀ k node parent, F (k + 1) node parent =
      turn node parent >>= fun b => b.elim (pure ()) fun a => F k a.1 a.2)
    (node parent : Option α) : Settled fun k => F k node parent := by
  refine Settled.loop (F := fun k a => F k a.1 a.2) (fun a => turn a.1 a.2)
    (fun k _ b => b.elim (pure ()) fun a => F k a.1 a.2) (fun _ => hzero ..)
    (fun _ _ => hsucc ..) ?_ (node, parent)
  intro a b
  cases b with
  | none => exact .inl ⟨_, fun _ => rfl⟩
  | some a' => exact .inr ⟨a', fun _ => rfl⟩

end Turns

variable [Word α W] [DecidableEq α] [DecidableEq ρ]

theorem rbInsertLoop_succ (root : ρ) (fuel : Nat) (node parent : Option α) :
    (rbInsertLoop root (fuel + 1) node parent : Prog α W ρ Unit) =
      rbInsertTurn node parent root >>= fun b =>
        b.elim (pure ()) fun a => rbInsertLoop root fuel a.1 a.2 := by
  rw [rbInsertLoop]
  congr 1
  funext b
  cases b <;> rfl

theorem rbEraseColorLoop_succ (root : ρ) (fuel : Nat) (node parent : Option α) :
    (rbEraseColorLoop root (fuel + 1) node parent : Prog α W ρ Unit) =
      rbEraseColorTurn node parent root >>= fun b =>
        b.elim (pure ()) fun a => rbEraseColorLoop root fuel a.1 a.2 := by
  rw [rbEraseColorLoop]
  congr 1
  funext b
  cases b <;> rfl

private theorem settled_rbInsertLoop (node parent : Option α) (root : ρ) :
    Settled fun k => (rbInsertLoop root k node parent : Prog α W ρ _) :=
  .turns (fun _ _ => rfl) (rbInsertLoop_succ root) node parent

private theorem settled_rbEraseColorLoop (node parent : Option α) (root : ρ) :
    Settled fun k => (rbEraseColorLoop root k node parent : Prog α W ρ _) :=
  .turns (fun _ _ => rfl) (rbEraseColorLoop_succ root) node parent

theorem settled_rbInsert (node parent : Option α) (rbLink : Slot α ρ) (root : ρ) :
    Settled fun k => (rbInsert k node parent rbLink root : Prog α W ρ _) :=
  .bind (.const _) fun _ => .bind (.const _) fun _ => settled_rbInsertLoop ..

theorem settled_rbErase (node : Option α) (root : ρ) :
    Settled fun k => (rbErase k node root : Prog α W ρ _) := by
  have haugmented : Settled fun k => (rbEraseAugmented k node root : Prog α W ρ _) :=
    .bind (.const _) fun _ => .bind (.const _) fun _ => .ite (.const _) (.ite (.const _)
      (.bind (.const _) fun _ => .bind
        (.ite (.const _) (.bind (settled_successorLoop ..) fun _ => .const _)) fun _ => .const _))
  exact .bind haugmented fun _ => .ite (settled_rbEraseColorLoop ..) (.const _)

end CommonProject.RBTree

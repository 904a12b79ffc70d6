import CommonProject.Foundations.Aggregates
import CommonProject.RBTree.AugmentedCode

/-! The callbacks leave the links alone, so a program with callbacks does to the memory what it does
without them. -/
namespace CommonProject.RBTree
open Foundations.RedBlack Foundations.RedBlack.ColorTree
variable {α W ρ σ β γ : Type}

def exec (p : AugProg α W ρ σ β) (aug : σ) (m : Memory α W ρ) :
    Except Fault ((β × σ) × Memory α W ρ) := (p.run aug).run m

/-- Whenever `p` comes to its end, so does `q`, with the same result and the same memory. -/
def Erases (p : AugProg α W ρ σ β) (q : Prog α W ρ β) : Prop :=
  ∀ ⦃aug m b aug' m'⦄, exec p aug m = .ok ((b, aug'), m') → q.run m = .ok (b, m')

def Silent (p : AugProg α W ρ σ β) : Prop :=
  ∀ ⦃aug m r⦄, exec p aug m = .ok r → r.2 = m

section Programs
variable {p : AugProg α W ρ σ β} {q q' : Prog α W ρ β} {f : β → AugProg α W ρ σ γ}
  {g : β → Prog α W ρ γ} {aug aug' : σ} {m m' : Memory α W ρ} {b : β}

@[simp] theorem exec_pure (b : β) (aug : σ) (m : Memory α W ρ) :
    exec (pure b) aug m = pure ((b, aug), m) := rfl

@[simp] theorem exec_bind (p : AugProg α W ρ σ β) (f : β → AugProg α W ρ σ γ) (aug : σ)
    (m : Memory α W ρ) :
    exec (p >>= f) aug m = exec p aug m >>= fun r => exec (f r.1.1) r.1.2 r.2 := rfl

theorem exec_plain (q : Prog α W ρ β) (aug : σ) (m : Memory α W ρ) :
    exec (plain q) aug m = q.run m >>= fun r => pure ((r.1, aug), r.2) := rfl

theorem exec_plain_of (h : q.run m = pure (b, m')) :
    exec (plain q) aug m = pure ((b, aug), m') := by rw [exec_plain, h, pure_bind]

@[simp] theorem plain_pure (b : β) : plain (pure b) = (pure b : AugProg α W ρ σ β) := rfl

@[simp] theorem plain_bind (q : Prog α W ρ β) (g : β → Prog α W ρ γ) :
    plain (q >>= g) = (plain q >>= fun b => plain (g b) : AugProg α W ρ σ γ) := by
  funext aug m
  change exec (plain (q >>= g)) aug m = exec (plain q >>= fun b => plain (g b)) aug m
  simp only [exec_bind, exec_plain, StateT.run_bind, bind_assoc, pure_bind]

@[simp] theorem plain_ite {c : Prop} [Decidable c] (q q' : Prog α W ρ β) :
    plain (if c then q else q') = (if c then plain q else plain q' : AugProg α W ρ σ β) := by
  split <;> rfl

private theorem erases_plain (q : Prog α W ρ β) : Erases (plain q : AugProg α W ρ σ β) q := by
  intro aug m b aug' m' h
  rw [exec_plain] at h
  cases hq : q.run m with
  | error e =>
    rw [hq] at h
    cases h
  | ok r =>
    rw [hq] at h
    cases h
    rfl

private theorem erases_pure (b : β) : Erases (pure b : AugProg α W ρ σ β) (pure b) :=
  erases_plain (pure b)

private theorem Erases.bind (hp : Erases p q) (hf : ∀ b, Erases (f b) (g b)) :
    Erases (p >>= f) (q >>= g) := by
  intro aug m c aug' m' h
  rw [exec_bind] at h
  cases hrun : exec p aug m with
  | error e =>
    rw [hrun] at h
    cases h
  | ok r =>
    rw [hrun] at h
    rw [StateT.run_bind, hp hrun]
    exact hf _ h

theorem Erases.step (hf : ∀ b, Erases (f b) (g b)) : Erases (plain q >>= f) (q >>= g) :=
  .bind (erases_plain q) hf

private theorem Erases.ite {c : Prop} [Decidable c] {p' : AugProg α W ρ σ β} (hp : Erases p q)
    (hp' : Erases p' q') : Erases (if c then p else p') (if c then q else q') := by
  split
  · exact hp
  · exact hp'

/-- A call of a callback goes away. -/
theorem Silent.erases {p : AugProg α W ρ σ Unit} {f : Unit → AugProg α W ρ σ β} (h : Silent p)
    (hf : ∀ u, Erases (f u) q) : Erases (p >>= f) q := by
  intro aug m c aug' m' hrun
  rw [exec_bind] at hrun
  cases hcall : exec p aug m with
  | error e =>
    rw [hcall] at hrun
    cases hrun
  | ok r =>
    rw [hcall] at hrun
    obtain rfl := h hcall
    exact hf _ hrun

/-- A last call before a result is returned. -/
private theorem Erases.before_return {call : AugProg α W ρ σ Unit} (hp : Erases p q)
    (h : Silent call) : Erases (p >>= fun b => call >>= fun _ => pure b) q := by
  have hbind : Erases (p >>= fun b => call >>= fun _ => pure b) (q >>= pure) :=
    hp.bind fun b => h.erases fun _ => erases_pure b
  rwa [bind_pure] at hbind

/-- The outcome of a run with callbacks is known from the run without. -/
theorem Erases.outcome_eq (h : Erases p q) {m₁ m₂ : Memory α W ρ} {b' : β}
    (hp : exec p aug m = pure ((b, aug'), m₁)) (hq : q.run m = pure (b', m₂)) : b = b' ∧ m₁ = m₂ :=
  Prod.ext_iff.mp (Except.ok.inj ((h hp).symm.trans hq))

end Programs

variable [Word α W] [DecidableEq α] [DecidableEq ρ]

section Rotations
variable {augmentRotate : Option α → Option α → AugProg α W ρ σ Unit}

private theorem erases_insertSide (h : ∀ old new, Silent (augmentRotate old new)) (d : Dir)
    (node parent gparent tmp : Option α) (root : ρ) :
    Erases (insertSideWith augmentRotate d node parent gparent tmp root)
      (insertSide d node parent gparent tmp root) := by
  simp only [insertSideWith, insertSide, plain_bind, plain_pure, bind_assoc]
  refine .step fun red => .ite ?flip (.step fun t => .bind (.ite ?case2 (erases_pure _)) ?case3)
  case flip => exact .step fun _ => .step fun _ => .step fun _ => .step fun _ => erases_pure _
  case case2 =>
    exact .step fun _ => .step fun _ => .step fun _ => .step fun _ => .step fun _ =>
      (h ..).erases fun _ => .step fun _ => erases_pure _
  case case3 =>
    exact fun r => .step fun _ => .step fun _ => .step fun _ => .step fun _ =>
      (h ..).erases fun _ => erases_pure _

private theorem erases_rbInsertTurn (h : ∀ old new, Silent (augmentRotate old new))
    (node parent : Option α) (root : ρ) :
    Erases (rbInsertTurnWith augmentRotate node parent root) (rbInsertTurn node parent root) :=
  .ite (erases_plain _) (.step fun _ => .ite (erases_pure _) (.step fun _ => .step fun _ =>
    .ite (erases_insertSide h ..) (.step fun _ => erases_insertSide h ..)))

theorem rbInsertLoopWith_succ (root : ρ) (fuel : Nat) (node parent : Option α) :
    rbInsertLoopWith augmentRotate root (fuel + 1) node parent =
      rbInsertTurnWith augmentRotate node parent root >>= fun b =>
        b.elim (pure ()) fun a => rbInsertLoopWith augmentRotate root fuel a.1 a.2 := by
  rw [rbInsertLoopWith]
  congr 1
  funext b
  cases b <;> rfl

theorem erases_rbInsertLoop (h : ∀ old new, Silent (augmentRotate old new)) (root : ρ) (fuel : Nat)
    (node parent : Option α) :
    Erases (rbInsertLoopWith augmentRotate root fuel node parent)
      (rbInsertLoop root fuel node parent) := by
  induction fuel generalizing node parent with
  | zero => exact erases_plain _
  | succ fuel ih =>
    rw [rbInsertLoopWith_succ, rbInsertLoop_succ]
    refine .bind (erases_rbInsertTurn h ..) fun b => ?_
    cases b with
    | none => exact erases_pure _
    | some a => exact ih ..

private theorem erases_eraseCase4 (h : ∀ old new, Silent (augmentRotate old new)) (d : Dir)
    (parent sibling tmp1 : Option α) (root : ρ) :
    Erases (eraseCase4With augmentRotate d parent sibling tmp1 root)
      (eraseCase4 d parent sibling tmp1 root) := by
  simp only [eraseCase4With, eraseCase4, plain_bind, bind_assoc]
  exact .step fun _ => .step fun _ => .step fun _ => .step fun _ => .step fun _ => .step fun _ =>
    (h ..).erases fun _ => erases_pure _

theorem erases_eraseCase1 (h : ∀ old new, Silent (augmentRotate old new)) (d : Dir)
    (parent sibling : Option α) (root : ρ) :
    Erases (eraseCase1With augmentRotate d parent sibling root)
      (eraseCase1 d parent sibling root) := by
  simp only [eraseCase1With, eraseCase1, plain_bind, plain_pure, bind_assoc, pure_bind]
  exact .step fun _ => .step fun _ => .step fun _ => .step fun _ => .step fun _ =>
    (h ..).erases fun _ => erases_pure _

private theorem erases_eraseBlack (h : ∀ old new, Silent (augmentRotate old new)) (d : Dir)
    (parent sibling : Option α) (root : ρ) :
    Erases (eraseBlackWith augmentRotate d parent sibling root)
      (eraseBlack d parent sibling root) := by
  simp only [eraseBlackWith, eraseBlack, plain_bind, bind_assoc]
  refine .step fun _ => .step fun _ => .ite (.step fun _ => .step fun _ => .ite ?flip ?case3)
    (erases_eraseCase4 h ..)
  case flip => exact .step fun _ => .step fun _ => erases_plain _
  case case3 =>
    exact .step fun _ => .step fun _ => .step fun _ => .step fun _ => .step fun _ =>
      (h ..).erases fun _ => erases_eraseCase4 h ..

private theorem erases_eraseSide (h : ∀ old new, Silent (augmentRotate old new)) (d : Dir)
    (parent sibling : Option α) (root : ρ) :
    Erases (eraseSideWith augmentRotate d parent sibling root)
      (eraseSide d parent sibling root) :=
  .step fun _ => .bind (.ite (erases_eraseCase1 h ..) (erases_pure _)) fun _ =>
    erases_eraseBlack h ..

private theorem erases_rbEraseColorTurn (h : ∀ old new, Silent (augmentRotate old new))
    (node parent : Option α) (root : ρ) :
    Erases (rbEraseColorTurnWith augmentRotate node parent root) (rbEraseColorTurn node parent root) :=
  .step fun _ => .ite (erases_eraseSide h ..) (.step fun _ => erases_eraseSide h ..)

theorem rbEraseColorLoopWith_succ (root : ρ) (fuel : Nat) (node parent : Option α) :
    rbEraseColorLoopWith augmentRotate root (fuel + 1) node parent =
      rbEraseColorTurnWith augmentRotate node parent root >>= fun b =>
        b.elim (pure ()) fun a => rbEraseColorLoopWith augmentRotate root fuel a.1 a.2 := by
  rw [rbEraseColorLoopWith]
  congr 1
  funext b
  cases b <;> rfl

private theorem erases_rbEraseColorLoop (h : ∀ old new, Silent (augmentRotate old new)) (root : ρ)
    (fuel : Nat) (node parent : Option α) :
    Erases (rbEraseColorLoopWith augmentRotate root fuel node parent)
      (rbEraseColorLoop root fuel node parent) := by
  induction fuel generalizing node parent with
  | zero => exact erases_plain _
  | succ fuel ih =>
    rw [rbEraseColorLoopWith_succ, rbEraseColorLoop_succ]
    refine .bind (erases_rbEraseColorTurn h ..) fun b => ?_
    cases b with
    | none => exact erases_pure _
    | some a => exact ih ..

end Rotations
section Erase
variable {augment : AugmentCallbacks α W ρ σ}

structure AugmentCallbacks.Silent (augment : AugmentCallbacks α W ρ σ) : Prop where
  propagate (node stop : Option α) : RBTree.Silent (augment.propagate node stop)
  copy (old new : Option α) : RBTree.Silent (augment.copy old new)
  rotate (old new : Option α) : RBTree.Silent (augment.rotate old new)

theorem erases_rbEraseAugmented (h : augment.Silent) (fuel : Nat) (node : Option α) (root : ρ) :
    Erases (rbEraseAugmentedWith augment fuel node root) (rbEraseAugmented fuel node root) := by
  simp only [rbEraseAugmentedWith, rbEraseAugmented, findSuccessorWith, plain_bind, plain_pure,
    bind_assoc, pure_bind]
  refine .step fun child => .step fun tmp => .ite ?case1 (.ite ?left (.step fun tmp =>
    .bind (.ite ?case2 ?case3) fun r => ?place))
  case case1 =>
    exact .step fun pc => .step fun _ => (erases_plain _).before_return (h.propagate ..)
  case left =>
    exact .step fun pc => .step fun _ => .step fun _ => (h.propagate ..).erases fun _ => erases_pure _
  case case2 => exact .step fun _ => (h.copy ..).erases fun _ => erases_pure _
  case case3 =>
    exact .step fun _ => .step fun _ => .step fun _ => .step fun _ => .step fun _ =>
      (h.copy ..).erases fun _ => (h.propagate ..).erases fun _ => erases_pure _
  case place => exact (erases_plain _).before_return (h.propagate ..)

theorem erases_rbErase (h : augment.Silent) (fuel : Nat) (node : Option α) (root : ρ) :
    Erases (rbEraseWith augment fuel node root) (rbErase fuel node root) :=
  .bind (erases_rbEraseAugmented h ..) fun _ =>
    .ite (erases_rbEraseColorLoop h.rotate ..) (erases_pure _)

end Erase

section Dummies
variable (fuel : Nat) (d : Dir) (node parent : Option α) (root : ρ)

private theorem insertSideWith_dummy (gparent tmp : Option α) :
    (insertSideWith dummyCallbacks.rotate d node parent gparent tmp root : AugProg α W ρ σ _) =
      plain (insertSide d node parent gparent tmp root) := by
  simp only [insertSideWith, insertSide, dummyCallbacks, plain_bind, plain_ite, plain_pure, bind_assoc,
    pure_bind]

private theorem rbInsertTurnWith_dummy :
    (rbInsertTurnWith dummyCallbacks.rotate node parent root : AugProg α W ρ σ _) =
      plain (rbInsertTurn node parent root) := by
  simp only [rbInsertTurnWith, rbInsertTurn, insertSideWith_dummy, rbInsertLeft_eq, rbInsertRight_eq,
    plain_bind, plain_ite, plain_pure]

private theorem rbInsertLoopWith_dummy :
    (rbInsertLoopWith dummyCallbacks.rotate root fuel node parent : AugProg α W ρ σ _) =
      plain (rbInsertLoop root fuel node parent) := by
  induction fuel generalizing node parent with
  | zero => rfl
  | succ fuel ih =>
    rw [rbInsertLoopWith_succ, rbInsertLoop_succ, plain_bind, rbInsertTurnWith_dummy]
    congr 1
    funext b
    cases b with
    | none => rfl
    | some a => exact ih ..

/-- `rb_insert_color` is `__rb_insert` with `dummy_rotate`. -/
theorem rbInsertWith_dummy :
    (rbInsertWith dummyCallbacks.rotate fuel node root : AugProg α W ρ σ _) =
      plain (rbInsertColor fuel node root) := by
  simp only [rbInsertWith, rbInsertColor, rbInsertLoopWith_dummy, plain_bind]

private theorem eraseSideWith_dummy (sibling : Option α) :
    (eraseSideWith dummyCallbacks.rotate d parent sibling root : AugProg α W ρ σ _) =
      plain (eraseSide d parent sibling root) := by
  simp only [eraseSideWith, eraseSide, eraseBlackWith, eraseBlack, eraseCase1With, eraseCase1,
    eraseCase4With, eraseCase4, dummyCallbacks, plain_bind, plain_ite, plain_pure, bind_assoc, pure_bind]

private theorem rbEraseColorTurnWith_dummy :
    (rbEraseColorTurnWith dummyCallbacks.rotate node parent root : AugProg α W ρ σ _) =
      plain (rbEraseColorTurn node parent root) := by
  simp only [rbEraseColorTurnWith, rbEraseColorTurn, eraseSideWith_dummy, rbEraseLeft_eq,
    rbEraseRight_eq, plain_bind, plain_ite]

private theorem rbEraseColorLoopWith_dummy :
    (rbEraseColorLoopWith dummyCallbacks.rotate root fuel node parent : AugProg α W ρ σ _) =
      plain (rbEraseColorLoop root fuel node parent) := by
  induction fuel generalizing node parent with
  | zero => rfl
  | succ fuel ih =>
    rw [rbEraseColorLoopWith_succ, rbEraseColorLoop_succ, plain_bind, rbEraseColorTurnWith_dummy]
    congr 1
    funext b
    cases b with
    | none => rfl
    | some a => exact ih ..

private theorem rbEraseAugmentedWith_dummy :
    (rbEraseAugmentedWith dummyCallbacks fuel node root : AugProg α W ρ σ _) =
      plain (rbEraseAugmented fuel node root) := by
  simp only [rbEraseAugmentedWith, rbEraseAugmented, findSuccessorWith, takePlace, dummyCallbacks,
    plain_bind, plain_ite, plain_pure, bind_assoc, pure_bind, bind_pure]

/-- `rb_erase` is what `dummy_callbacks` make of it. -/
theorem rbEraseWith_dummy :
    (rbEraseWith dummyCallbacks fuel node root : AugProg α W ρ σ _) =
      plain (rbErase fuel node root) := by
  simp only [rbEraseWith, rbErase, rbEraseAugmentedWith_dummy, rbEraseColorWith, rbEraseColor,
    rbEraseColorLoopWith_dummy, plain_bind, plain_ite, plain_pure]

end Dummies
end CommonProject.RBTree

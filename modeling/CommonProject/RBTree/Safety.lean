import CommonProject.RBTree.Runs

/-! No call goes through NULL, and every turn of the rebalancing loops is closer to the root. -/
namespace CommonProject.RBTree
open Foundations Foundations.RedBlack Foundations.RedBlack.ColorTree
variable {α W ρ : Type} [Word α W]

/-- How many parent links lead from a pointer to NULL. -/
inductive ToRoot (m : Memory α W ρ) : Option α → Nat → Prop
  | null : ToRoot m none 0
  | step {x : α} {n : Nat} : ToRoot m (Word.parent (m.rbParentColor x)) n → ToRoot m (some x) (n + 1)

structure Head (α W ρ : Type) where
  node : Option α
  parent : Option α
  memory : Memory α W ρ

def repeatTurn (turn : Option α → Option α → Prog α W ρ (Turn α)) (h : Head α W ρ) (_ : Unit) :
    Option (Head α W ρ) :=
  ((turn h.node h.parent).run h.memory).toOption.bind fun r => r.1.map fun a => ⟨a.1, a.2, r.2⟩

def Closer (h h' : Head α W ρ) : Prop :=
  ∃ n n', ToRoot h.memory h.parent n ∧ ToRoot h'.memory h'.parent n' ∧ n' < n

private theorem toRoot_above {m : Memory α W ρ} {root : ρ} {ctx : List (Frame α)}
    (h : RepCtx m root ctx) : ToRoot m (above ctx) ctx.length := by
  induction ctx with
  | nil => exact .null
  | cons f ctx ih =>
    apply ToRoot.step
    rw [h.1, Word.parent_pack]
    exact ih h.2.2.2.1

section Loops
variable {root : ρ} {turn : Option α → Option α → Prog α W ρ (Turn α)}
  {P : Memory α W ρ → List (Frame α) → ColorTree α → Prop}

/-- A turn that goes through no NULL and goes on closer to the root, if at all. -/
def GoodTurn (turn : Option α → Option α → Prog α W ρ (Turn α))
    (P : Memory α W ρ → List (Frame α) → ColorTree α → Prop) : Prop :=
  ∀ m ctx t, P m ctx t →
    (∃ m', (turn t.root (above ctx)).run m = .ok (none, m')) ∨
    ∃ m' ctx' t', (turn t.root (above ctx)).run m = .ok (some (t'.root, above ctx'), m') ∧
      P m' ctx' t' ∧ ctx'.length < ctx.length

omit [Word α W] in
theorem repeatTurn_eq_some {h h' : Head α W ρ} {u : Unit} : repeatTurn turn h u = some h' ↔
    (turn h.node h.parent).run h.memory = .ok (some (h'.node, h'.parent), h'.memory) := by
  rw [repeatTurn]
  cases (turn h.node h.parent).run h.memory with
  | error e => simp [Except.toOption]
  | ok r =>
    obtain ⟨a, m⟩ := r
    obtain ⟨node', parent', m'⟩ := h'
    cases a with
    | none => simp [Except.toOption]
    | some a => simp [Except.toOption, Prod.ext_iff, and_assoc]

def HeadAt (P : Memory α W ρ → List (Frame α) → ColorTree α → Prop) (h : Head α W ρ)
    (ctx : List (Frame α)) : Prop :=
  ∃ t, P h.memory ctx t ∧ h.node = t.root ∧ h.parent = above ctx

private theorem HeadAt.toRoot {h : Head α W ρ} {ctx : List (Frame α)} (hhead : HeadAt P h ctx)
    (hctx : ∀ m ctx t, P m ctx t → RepCtx m root ctx) : ToRoot h.memory h.parent ctx.length := by
  obtain ⟨t, hP, -, hparent⟩ := hhead
  rw [hparent]
  exact toRoot_above (hctx _ _ _ hP)

omit [Word α W] in
private theorem GoodTurn.step (hgood : GoodTurn turn P) {h : Head α W ρ} {ctx : List (Frame α)}
    (hhead : HeadAt P h ctx) :
    (∃ r, (turn h.node h.parent).run h.memory = .ok r) ∧
    ∀ h', repeatTurn turn h () = some h' → ∃ ctx', HeadAt P h' ctx' ∧ ctx'.length < ctx.length := by
  obtain ⟨t, hP, hnode, hparent⟩ := hhead
  simp only [repeatTurn_eq_some, hnode, hparent]
  rcases hgood _ _ _ hP with ⟨m', hrun⟩ | ⟨m', ctx', t', hrun, hP', hlt⟩
  · refine ⟨⟨_, hrun⟩, fun h' hstep => ?_⟩
    cases hstep.symm.trans hrun
  · refine ⟨⟨_, hrun⟩, fun h' hstep => ⟨ctx', ⟨t', ?_⟩, hlt⟩⟩
    have heq := Prod.mk.inj (Except.ok.inj (hstep.symm.trans hrun))
    have hturn := Prod.mk.inj (Option.some.inj heq.1)
    exact ⟨heq.2 ▸ hP', hturn.1, hturn.2⟩

/-- So every turn that is ever begun is safe, and every repetition is closer to the root. -/
private theorem GoodTurn.safe (hgood : GoodTurn turn P)
    (hctx : ∀ m ctx t, P m ctx t → RepCtx m root ctx)
    {m : Memory α W ρ} {ctx : List (Frame α)} {t : ColorTree α} (hstart : P m ctx t)
    {h : Head α W ρ} (hr : Reachable (repeatTurn turn) ⟨t.root, above ctx, m⟩ h) :
    (∃ r, (turn h.node h.parent).run h.memory = .ok r) ∧
    ∀ h', repeatTurn turn h () = some h' → Closer h h' := by
  obtain ⟨ctx, hhead⟩ : ∃ ctx, HeadAt P h ctx := by
    refine hr.invariant (P := fun h => ∃ ctx, HeadAt P h ctx) ⟨ctx, t, hstart, rfl, rfl⟩ ?_
    rintro a _ b ⟨ctx, hhead⟩ hstep
    obtain ⟨ctx', hhead', -⟩ := (hgood.step hhead).2 b hstep
    exact ⟨ctx', hhead'⟩
  refine ⟨(hgood.step hhead).1, fun h' hstep => ?_⟩
  obtain ⟨ctx', hhead', hlt⟩ := (hgood.step hhead).2 h' hstep
  exact ⟨ctx.length, ctx'.length, hhead.toRoot hctx, hhead'.toRoot hctx, hlt⟩

end Loops

section Calls
variable [DecidableEq α] [DecidableEq ρ] {m : Memory α W ρ} {root : ρ} {live : List α}
  {t : ColorTree α} {op : Op α ρ} {fuel : Nat}

private theorem good_insert (root : ρ) :
    GoodTurn (fun node parent => (rbInsertTurn node parent root : Prog α W ρ (Turn α)))
      fun m ctx t => InsertHead m root ctx t := by
  intro m ctx t h
  rcases run_rbInsertTurn h with ⟨m', hrun, -⟩ | ⟨m', ctx', t', hrun, -, hhead, hlt, -⟩
  · exact .inl ⟨m', hrun⟩
  · exact .inr ⟨m', ctx', t', hrun, hhead, hlt⟩

private theorem good_erase (root : ρ) :
    GoodTurn (fun node parent => (rbEraseColorTurn node parent root : Prog α W ρ (Turn α)))
      fun m ctx t => EraseHead m root ctx t := by
  intro m ctx t h
  rcases run_rbEraseColorTurn h with ⟨m', hrun, -⟩ | ⟨m', ctx', t', hrun, -, hhead, hlt, -⟩
  · exact .inl ⟨m', hrun⟩
  · exact .inr ⟨m', ctx', t', hrun, hhead, hlt⟩

def Op.turn (root : ρ) : Op α ρ → Option α → Option α → Prog α W ρ (Turn α)
  | .insert _ _ _ => fun node parent => rbInsertTurn node parent root
  | .erase _ => fun node parent => rbEraseColorTurn node parent root

/-- What a call does before its loop, and where that begins, if at all. -/
def Op.start (root : ρ) (fuel : Nat) : Op α ρ → Prog α W ρ (Turn α)
  | .insert x parent rbLink => do
    rbLinkNode (some x) parent rbLink
    let parent ← rbRedParent (some x)
    return some (some x, parent)
  | .erase x => do
    let rebalance ← rbEraseAugmented fuel (some x) root
    return if rebalance.isSome then some (none, rebalance) else none

def Op.loop (root : ρ) (fuel : Nat) : Op α ρ → Option α → Option α → Prog α W ρ Unit
  | .insert _ _ _ => rbInsertLoop root fuel
  | .erase _ => rbEraseColorLoop root fuel

theorem Op.program_eq (op : Op α ρ) (root : ρ) (fuel : Nat) :
    (op.program root fuel : Prog α W ρ Unit) =
      op.start root fuel >>= fun b => b.elim (pure ()) fun a => op.loop root fuel a.1 a.2 := by
  cases op with
  | insert x parent rbLink =>
    simp only [Op.program, Op.start, Op.loop, rbInsert, rbInsertColor, bind_assoc, pure_bind,
      Option.elim_some]
  | erase x =>
    simp only [Op.program, Op.start, Op.loop, rbErase_eq, bind_assoc, pure_bind]
    congr 1
    funext rebalance
    cases rebalance <;> rfl

/-- Where the loops begin, what they rely on holds. -/
private theorem run_start (h : RedBlackTree m root live t) (hlegal : Legal root ⟨m, live⟩ op)
    (hfuel : live.length < fuel) :
    ∃ b m₁, (op.start root fuel).run m = .ok (b, m₁) ∧ ∀ node parent, b = some (node, parent) →
      ∀ head, Reachable (repeatTurn (op.turn root)) ⟨node, parent, m₁⟩ head →
        (∃ r, (op.turn root head.node head.parent).run head.memory = .ok r) ∧
        ∀ head', repeatTurn (op.turn root) head () = some head' → Closer head head' := by
  obtain ⟨N, hb⟩ := h.balanced
  cases op with
  | insert x parent rbLink =>
    obtain ⟨hx, hplace, hnull⟩ := hlegal
    obtain ⟨ctx, rfl, rfl, rfl⟩ := onTree_place h.toAt h.perm hplace hnull
    obtain ⟨p, c, n, ha, hnil, -⟩ := hb.around
    cases hnil
    obtain ⟨m₁, hlink, hmoved⟩ := run_rbLinkNode (at_plug.mpr h.toAt) (h.notMem_around hx)
    refine ⟨some (some x, above ctx), m₁, ?_, ?_⟩
    · simp only [Op.start, StateT.run_bind, hlink, pure_bind, run_rbRedParent hmoved.rep.1]
      rfl
    · rintro node parent ⟨⟩ head hr
      exact (good_insert root).safe (fun _ _ _ h => h.repCtx)
        ⟨hmoved.toAt, p, _, ha, .red .nil .nil⟩ hr
  | erase x =>
    obtain ⟨rebalance, m₁, hrun, ⟨rfl, -⟩ | ⟨ctx, rfl, hhead, -⟩⟩ := erase_begins h hlegal hfuel.le
    · refine ⟨none, m₁, ?_, by simp⟩
      rw [Op.start, StateT.run_bind, hrun]
      rfl
    · cases ctx with
      | nil => exact absurd rfl hhead.below
      | cons f ctx =>
        refine ⟨some (none, some f.value), m₁, ?_, ?_⟩
        · rw [Op.start, StateT.run_bind, hrun]
          rfl
        · rintro node parent ⟨⟩ head hr
          exact (good_erase root).safe (fun _ _ _ h => h.repCtx) hhead hr

/-- No call goes through NULL, and the loops come to an end because each repetition is closer to the
root. -/
theorem rebalancing_is_safe (h : RedBlackTree m root live t) (hlegal : Legal root ⟨m, live⟩ op) :
    (∀ fuel e, (op.program root fuel).run m = .error e → e = .outOfFuel) ∧
    ∀ fuel, live.length < fuel →
      (∃ r, (op.program root fuel).run m = .ok r) ∧
      ∃ b m₁, (op.start root fuel).run m = .ok (b, m₁) ∧ ∀ node parent, b = some (node, parent) →
        ∀ head, Reachable (repeatTurn (op.turn root)) ⟨node, parent, m₁⟩ head →
          (∃ r, (op.turn root head.node head.parent).run head.memory = .ok r) ∧
          ∀ head', repeatTurn (op.turn root) head () = some head' → Closer head head' := by
  refine ⟨fun fuel e => legal_fault (s := ⟨m, live⟩) h hlegal, fun fuel hfuel => ?_⟩
  obtain ⟨m', -, hrun, -⟩ := legal_run (s := ⟨m, live⟩) fuel h hlegal hfuel
  exact ⟨⟨_, hrun⟩, run_start h hlegal hfuel⟩

/-- A fourth node below a red one and a red uncle: the loop begins at the new node. -/
theorem fourth_node_inserted_safely :
    ∃ (s : State Address (BitVec 64) Unit) (m₁ : Memory Address (BitVec 64) Unit),
      (Op.start () 4 (.insert ⟨24#64, by decide⟩ (some ⟨8#64, by decide⟩)
        (.rbRight ⟨8#64, by decide⟩))).run s.memory =
          .ok (some (some ⟨24#64, by decide⟩, some ⟨8#64, by decide⟩), m₁) ∧
      ∃ r, (rbInsertTurn (some ⟨24#64, by decide⟩) (some ⟨8#64, by decide⟩) ()).run m₁ = .ok r := by
  obtain ⟨t, ht⟩ := reachable_redBlackTree rfl reachable_threeNodes
  have hsafe := fun (op : Op Address Unit) (hop : Legal () _ op) => rebalancing_is_safe ht hop
  obtain ⟨-, b, m₁, hstart, hturns⟩ := (hsafe (.insert ⟨24#64, by decide⟩ (some ⟨8#64, by decide⟩)
    (.rbRight ⟨8#64, by decide⟩)) (by decide)).2 4 (by decide)
  have hfirst := congrArg (fun r => r.toOption.map Prod.fst) hstart
  have hb : some (some (some ⟨24#64, by decide⟩, some ⟨8#64, by decide⟩)) = some b := hfirst
  obtain rfl := Option.some.inj hb
  exact ⟨_, m₁, hstart, (hturns _ _ rfl _ ⟨[], rfl⟩).1⟩

end Calls
end CommonProject.RBTree

import Mathlib.Algebra.BigOperators.Group.List.Basic
import Mathlib.Algebra.Order.Ring.Nat
import CommonProject.Foundations.Amortised
import CommonProject.RBTree.Safety

/-! How often the rebalancing loops turn in a whole run: a fixed number of times for each call. -/
namespace CommonProject.RBTree
open Foundations Foundations.RedBlack
variable {α W ρ : Type}

def countTurns (turn : Option α → Option α → Prog α W ρ (Turn α)) :
    Nat → Option α → Option α → Prog α W ρ Nat
  | 0, _, _ => throw .outOfFuel
  | fuel + 1, node, parent => do
    match ← turn node parent with
    | none => return 1
    | some (node, parent) =>
      let n ← countTurns turn fuel node parent
      return n + 1

section Counts
variable {turn : Option α → Option α → Prog α W ρ (Turn α)}
  {P : Memory α W ρ → List (Frame α) → ColorTree α → Prop} {cost : List (Frame α) → ColorTree α → Nat}

/-- The tree knows how many turns are to come. -/
def CountedTurn (turn : Option α → Option α → Prog α W ρ (Turn α))
    (P : Memory α W ρ → List (Frame α) → ColorTree α → Prop)
    (cost : List (Frame α) → ColorTree α → Nat) : Prop :=
  ∀ m ctx t, P m ctx t →
    (∃ m', (turn t.root (above ctx)).run m = .ok (none, m') ∧ cost ctx t = 1) ∨
    ∃ m' ctx' t', (turn t.root (above ctx)).run m = .ok (some (t'.root, above ctx'), m') ∧
      P m' ctx' t' ∧ cost ctx t = cost ctx' t' + 1

private theorem countTurns_succ (fuel : Nat) (node parent : Option α) :
    countTurns turn (fuel + 1) node parent = turn node parent >>= fun b =>
      b.elim (pure 1) fun a => countTurns turn fuel a.1 a.2 >>= fun n => pure (n + 1) := by
  rw [countTurns]
  congr 1
  funext b
  cases b <;> rfl

private theorem CountedTurn.eq_cost (h : CountedTurn turn P cost) {m m' : Memory α W ρ}
    {ctx : List (Frame α)} {t : ColorTree α} {fuel n : Nat} (hP : P m ctx t)
    (hrun : (countTurns turn fuel t.root (above ctx)).run m = .ok (n, m')) : n = cost ctx t := by
  induction fuel generalizing m ctx t n with
  | zero => cases hrun
  | succ fuel ih =>
    rw [countTurns_succ, StateT.run_bind] at hrun
    rcases h m ctx t hP with ⟨m₁, hturn, hcost⟩ | ⟨m₁, ctx', t', hturn, hP', hcost⟩
    · rw [hturn] at hrun
      cases hrun
      exact hcost.symm
    · rw [hturn] at hrun
      change ((countTurns turn fuel t'.root (above ctx')).run m₁ >>= _) = _ at hrun
      cases hrest : (countTurns turn fuel t'.root (above ctx')).run m₁ with
      | error e =>
        rw [hrest] at hrun
        cases hrun
      | ok r =>
        rw [hrest] at hrun
        cases hrun
        rw [hcost, ih hP' hrest]

/-- Counting changes nothing. -/
private theorem countTurns_discard {F : Nat → Option α → Option α → Prog α W ρ Unit}
    (hzero : ∀ node parent, F 0 node parent = throw .outOfFuel)
    (hsucc : ∀ k node parent, F (k + 1) node parent =
      turn node parent >>= fun b => b.elim (pure ()) fun a => F k a.1 a.2)
    (fuel : Nat) (node parent : Option α) :
    (countTurns turn fuel node parent >>= fun _ => pure ()) = F fuel node parent := by
  induction fuel generalizing node parent with
  | zero =>
    rw [hzero]
    rfl
  | succ fuel ih =>
    rw [countTurns_succ, hsucc, bind_assoc]
    congr 1
    funext b
    cases b with
    | none => rfl
    | some a => simp only [Option.elim_some, bind_assoc, pure_bind, ih]

end Counts

variable [DecidableEq α] [DecidableEq ρ] [Word α W]

def Op.counted (root : ρ) (fuel : Nat) (op : Op α ρ) : Prog α W ρ Nat := do
  match ← op.start root fuel with
  | none => return 0
  | some (node, parent) => countTurns (op.turn root) fuel node parent

private theorem Op.counted_eq (op : Op α ρ) (root : ρ) (fuel : Nat) :
    (op.counted root fuel : Prog α W ρ Nat) = op.start root fuel >>= fun b =>
      b.elim (pure 0) fun a => countTurns (op.turn root) fuel a.1 a.2 := by
  rw [Op.counted]
  congr 1
  funext b
  cases b <;> rfl

private theorem Op.counted_discard (op : Op α ρ) (root : ρ) (fuel : Nat) :
    (op.counted root fuel >>= fun _ => pure ()) = (op.program root fuel : Prog α W ρ Unit) := by
  rw [Op.program_eq, Op.counted_eq, bind_assoc]
  congr 1
  funext b
  cases b with
  | none => rfl
  | some a =>
    cases op with
    | insert x parent rbLink =>
      exact countTurns_discard (fun _ _ => rfl) (rbInsertLoop_succ root) fuel a.1 a.2
    | erase x => exact countTurns_discard (fun _ _ => rfl) (rbEraseColorLoop_succ root) fuel a.1 a.2

section Turns
variable {m : Memory α W ρ} {root : ρ} {ctx : List (Frame α)} {t : ColorTree α}

private theorem counted_insert (root : ρ) :
    CountedTurn (fun node parent => (rbInsertTurn node parent root : Prog α W ρ (Turn α)))
      (fun m ctx t => InsertHead m root ctx t) insertTurns := by
  intro m ctx t h
  obtain ⟨hat, p, n, ha, ht⟩ := h
  obtain ⟨x, hx⟩ := ht.exists_root
  rw [hx]
  fun_cases insertTurns ctx t with
  | case1 t =>
    obtain ⟨m', hrun, -⟩ := run_rbInsertTurn_root hat hx
    exact .inl ⟨m', hrun, rfl⟩
  | case2 f t =>
    have hf : f.color = .black := by
      cases ha with
      | red _ h => cases h
      | black => rfl
    exact .inl ⟨m, run_rbInsertTurn_black hat hf, rfl⟩
  | case3 f g ctx t hb => exact .inl ⟨m, run_rbInsertTurn_black hat hb, rfl⟩
  | case4 f g ctx t hr hu =>
    obtain ⟨dp, cp, y, s⟩ := f
    obtain ⟨d, cg, z, u⟩ := g
    cases ha with
    | black => exact absurd rfl hr
    | red hs ha =>
      cases ha with
      | black hun ha =>
        obtain rfl := hun.color_eq.symm.trans hu
        obtain ⟨m', hrun, hmoved⟩ := run_insertSide_flip (x := x) hat hu
        rw [← run_rbInsertTurn_red hat] at hrun
        have hred := Balanced.branch_red (d := d) (x := z)
          (.branch_black (d := dp) (x := y) ht hs) hun.paint_black
        refine .inr ⟨m', ctx, _, ?_, ⟨hmoved.toAt, _, _, ha, hred⟩, rfl⟩
        rw [root_branch]
        exact hrun
  | case5 f g ctx t hr hu =>
    obtain ⟨dp, cp, y, s⟩ := f
    obtain ⟨d, cg, z, u⟩ := g
    cases ha with
    | black => exact absurd rfl hr
    | red hs ha =>
      obtain ⟨m', hrun, -⟩ := run_insertSide_insertRotate hat (Color.eq_black hu) hx
      rw [← run_rbInsertTurn_red hat] at hrun
      exact .inl ⟨m', hrun, rfl⟩

private theorem counted_erase (root : ρ) :
    CountedTurn (fun node parent => (rbEraseColorTurn node parent root : Prog α W ρ (Turn α)))
      (fun m ctx t => EraseHead m root ctx t) eraseTurns := by
  intro m ctx t h
  obtain ⟨hat, ⟨p, n, ha, ht⟩, hne⟩ := h
  cases ctx with
  | nil => exact absurd rfl hne
  | cons f ctx =>
    by_cases hsib : ∃ l s r, f.sibling = .node .red l s r
    · obtain ⟨l, s, r, hsib⟩ := hsib
      obtain ⟨d, c, x, sib⟩ := f
      obtain rfl : sib = .node .red l s r := hsib
      have hturn := run_rbEraseColorTurn_side hat (by simp)
      have hfill := at_fill.mp hat
      cases ha with
      | red hs => cases hs
      | black hs ha =>
        simp only [Frame.fill] at hfill
        rw [node_eq_branch d] at hs hfill
        obtain ⟨-, hnear, -⟩ := balanced_red_branch.mp (hs.color_eq ▸ hs)
        obtain ⟨m', hrun, -⟩ := run_eraseSide_red hfill hnear.ne_nil
        exact .inl ⟨m', hturn.trans hrun, rfl⟩
    · have hred : ∀ l s r, f.sibling = .node .red l s r → False := fun l s r hs =>
        hsib ⟨l, s, r, hs⟩
      obtain ⟨hs, hb⟩ := sibling_black ha hred
      have hspec := eraseRotate_spec f t
      rw [eraseTurns_of_ne hred]
      cases hrot : eraseRotate f t with
      | some u =>
        rw [hrot] at hspec
        obtain ⟨m', hrun, -⟩ := run_eraseBlack_some (at_fill.mp hat) hspec
        exact .inl ⟨m', (run_rbEraseColorTurn_black hat hs hb).trans hrun, rfl⟩
      | none =>
        rw [hrot] at hspec
        obtain ⟨m', hrun, hmoved⟩ := run_eraseBlack_none (at_fill.mp hat) hs hspec
        rw [← run_rbEraseColorTurn_black hat hs hb] at hrun
        by_cases hcol : f.color = .red
        · rw [if_pos (.inl hcol)] at hrun
          exact .inl ⟨m', hrun, if_pos hcol⟩
        · obtain ⟨d, c, x, sib⟩ := f
          cases ha with
          | red => exact absurd rfl hcol
          | black hsib ha =>
            obtain rfl := hsib.black_of_ne hred
            cases ctx with
            | nil =>
              rw [if_pos (.inr rfl)] at hrun
              exact .inl ⟨m', hrun, rfl⟩
            | cons g ctx =>
              rw [if_neg (by simp)] at hrun
              refine .inr ⟨m', g :: ctx, _, ?_, ⟨hmoved.toAt, ⟨_, _, ha,
                flipSibling_balanced hrot hsib ht⟩, List.cons_ne_nil _ _⟩, rfl⟩
              rw [root_branch]
              exact hrun

end Turns

section Calls
variable {m m' : Memory α W ρ} {root : ρ} {live : List α} {t : ColorTree α} {op : Op α ρ}
  {fuel n : Nat}

/-- What a call adds to the account from which its turns are paid. -/
def Op.allowance : Op α ρ → Nat
  | .insert _ _ _ => 3
  | .erase _ => 4

private theorem settled_rbEraseAugmented (node : Option α) (root : ρ) :
    Settled fun k => (rbEraseAugmented k node root : Prog α W ρ _) :=
  .bind (.const _) fun _ => .bind (.const _) fun _ => .ite (.const _) (.ite (.const _)
    (.bind (.const _) fun _ => .bind
      (.ite (.const _) (.bind (settled_successorLoop ..) fun _ => .const _)) fun _ => .const _))

/-- A counted call is the call, and its count is that of the loop from where it starts. -/
private theorem run_counted (hrun : (op.counted root fuel).run m = .ok (n, m')) :
    (op.program root fuel).run m = .ok ((), m') ∧
    ∃ b m₁, (op.start root fuel).run m = .ok (b, m₁) ∧
      (b.elim (pure 0) fun a => countTurns (op.turn root) fuel a.1 a.2).run m₁ = .ok (n, m') := by
  constructor
  · rw [← Op.counted_discard, StateT.run_bind, hrun]
    rfl
  · rw [Op.counted_eq, StateT.run_bind] at hrun
    cases hstart : (op.start root fuel).run m with
    | error e =>
      rw [hstart] at hrun
      cases hrun
    | ok r =>
      rw [hstart] at hrun
      exact ⟨r.1, r.2, rfl, hrun⟩

/-- An insertion pays for its turns. -/
private theorem insert_pays {x : α} {parent : Option α} {rbLink : Slot α ρ}
    (h : RedBlackTree m root live t) (hlegal : Legal root ⟨m, live⟩ (.insert x parent rbLink))
    (hrun : ((Op.insert x parent rbLink).counted root fuel).run m = .ok (n, m')) :
    ∃ t', RedBlackTree m' root (live ++ [x]) t' ∧ n + t'.potential ≤ t.potential + 3 := by
  obtain ⟨hx, hplace, hnull⟩ := hlegal
  obtain ⟨ctx, rfl, rfl, rfl⟩ := onTree_place h.toAt h.perm hplace hnull
  obtain ⟨hprogram, b, m₁, hstart, hcount⟩ := run_counted hrun
  obtain ⟨m₂, hrun₂, htree⟩ := insert_redBlackTree h hx (Nat.lt_succ_of_le (Nat.le_add_right _ fuel))
  have hmore := (settled_program (.insert x (above ctx) (slot root ctx)) root).stable
    (by omega : fuel ≤ live.length + fuel + 1) hprogram
  obtain rfl : m₂ = m' := congrArg Prod.snd (Except.ok.inj (hrun₂.symm.trans hmore))
  obtain ⟨N, hb⟩ := h.balanced
  obtain ⟨p, c, k, ha, hnil, -⟩ := hb.around
  cases hnil
  obtain ⟨m₃, hlink, hmoved⟩ := run_rbLinkNode (at_plug.mpr h.toAt) (h.notMem_around hx)
  simp only [Op.start, StateT.run_bind, hlink, pure_bind, run_rbRedParent hmoved.rep.1] at hstart
  cases hstart
  obtain rfl : n = insertTurns ctx (.node .red .nil x .nil) :=
    (counted_insert root).eq_cost ⟨hmoved.toAt, _, _, ha, .red .nil .nil⟩ hcount
  exact ⟨_, htree, insert_amortised hb⟩

/-- An erasure pays for its turns. -/
private theorem erase_pays {x : α} (h : RedBlackTree m root live t) (hx : x ∈ live)
    (hrun : ((Op.erase x).counted root fuel).run m = .ok (n, m')) :
    ∃ t', RedBlackTree m' root (live.erase x) t' ∧ n + t'.potential ≤ t.potential + 4 := by
  obtain ⟨ctx, c, l, r, rfl⟩ := exists_plug (h.perm.mem_iff.mpr hx)
  obtain ⟨hprogram, b, m₁, hstart, hcount⟩ := run_counted hrun
  have hfuel : live.length ≤ live.length + fuel := Nat.le_add_right ..
  obtain ⟨m₂, hrun₂, htree⟩ := erase_redBlackTree h hfuel
  have hmore := (settled_program (.erase x) root).stable
    (by omega : fuel ≤ live.length + fuel) hprogram
  obtain rfl : m₂ = m' := congrArg Prod.snd (Except.ok.inj (hrun₂.symm.trans hmore))
  obtain ⟨N, hb⟩ := h.balanced
  have hdeficit := splice_deficit hb
  have hpays := erase_amortised hb
  obtain ⟨m₃, haugmented, hmoved⟩ := run_rbEraseAugmented (at_plug.mpr h.toAt)
    (h.erase_perm.2.trans hfuel)
  have hsettled : Settled fun k => (Op.start root k (.erase x) : Prog α W ρ _) :=
    .bind (settled_rbEraseAugmented ..) fun _ => .const _
  have hstart' := hsettled.stable (by omega : fuel ≤ live.length + fuel) hstart
  simp only [Op.start, StateT.run_bind, haugmented, pure_bind] at hstart'
  refine ⟨_, htree, le_trans (Nat.add_le_add_right (Nat.le_of_eq ?_) _) hpays⟩
  revert hstart' hdeficit hmoved
  generalize (splice ctx c l r).1 = ctx', (splice ctx c l r).2.1 = t', (splice ctx c l r).2.2 = deficit
  intro hdeficit hmoved hstart'
  cases hstart'
  cases deficit with
  | false =>
    cases hcount
    rfl
  | true =>
    obtain ⟨rfl, p, ha⟩ := hdeficit rfl
    cases ctx' with
    | nil =>
      cases hcount
      rfl
    | cons f ctx' =>
      have hhead : EraseHead m₁ root (f :: ctx') .nil :=
        ⟨hmoved.toAt, ⟨p, 0, ha, .nil⟩, List.cons_ne_nil _ _⟩
      exact (counted_erase root).eq_cost hhead hcount

end Calls
def tally (root : ρ) (s : State α W ρ × Nat) (call : Op α ρ × Nat) : Option (State α W ρ × Nat) :=
  if Legal root s.1 call.1 then
    ((call.1.counted root call.2).run s.1.memory).toOption.map fun r =>
      (⟨r.2, call.1.after s.1.live⟩, s.2 + r.1)
  else none

section Runs
variable {root : ρ} {s s' : State α W ρ} {t : ColorTree α}

/-- Every step has its tally, and pays for it. -/
private theorem step_tally {call : Op α ρ × Nat} (k : Nat) (h : RedBlackTree s.memory root s.live t)
    (hstep : step root s call = some s') :
    ∃ n t', tally root (s, k) call = some (s', k + n) ∧ RedBlackTree s'.memory root s'.live t' ∧
      n + t'.potential ≤ t.potential + call.1.allowance := by
  obtain ⟨hlegal, m, hrun, rfl⟩ := step_eq_some.mp hstep
  obtain ⟨op, fuel⟩ := call
  rw [← Op.counted_discard, StateT.run_bind] at hrun
  cases hcounted : (op.counted root fuel).run s.memory with
  | error e =>
    rw [hcounted] at hrun
    cases hrun
  | ok r =>
    obtain ⟨n, m'⟩ := r
    rw [hcounted] at hrun
    cases hrun
    have htally : tally root (s, k) (op, fuel) = some (⟨m', op.after s.live⟩, k + n) := by
      rw [tally, if_pos hlegal, hcounted]
      rfl
    cases op with
    | insert x parent rbLink =>
      obtain ⟨t', htree, hpays⟩ := insert_pays h hlegal hcounted
      exact ⟨n, t', htally, htree, hpays⟩
    | erase x =>
      obtain ⟨t', htree, hpays⟩ := erase_pays h hlegal hcounted
      exact ⟨n, t', htally, htree, hpays⟩

private theorem run_tally {calls : List (Op α ρ × Nat)} (k : Nat)
    (h : RedBlackTree s.memory root s.live t) (hrun : run (step root) s calls = some s') :
    ∃ n t', run (tally root) (s, k) calls = some (s', k + n) ∧
      RedBlackTree s'.memory root s'.live t' ∧
      n + t'.potential ≤ t.potential + (calls.map fun call => call.1.allowance).sum := by
  induction calls generalizing s t k with
  | nil =>
    obtain rfl := Option.some.inj hrun
    exact ⟨0, t, rfl, h, by simp⟩
  | cons call calls ih =>
    obtain ⟨s₁, hstep, hrest⟩ := Option.bind_eq_some_iff.mp hrun
    obtain ⟨n₁, t₁, htally, htree, hpays⟩ := step_tally k h hstep
    obtain ⟨n₂, t₂, htallies, htree', hpays'⟩ := ih (k + n₁) htree hrest
    refine ⟨n₁ + n₂, t₂, ?_, htree', ?_⟩
    · rw [run, htally, Option.bind_some, htallies, Nat.add_assoc]
    · rw [List.map_cons, List.sum_cons]
      omega

/-- In every run from `RB_ROOT`, the rebalancing loops make at most three turns for each insertion
and four for each erasure in all, however far up the tree a single one of them goes. -/
theorem rebalancing_is_amortised {m : Memory α W ρ} {calls : List (Op α ρ × Nat)}
    (h₀ : m.rbNode root = none) (h : run (step root) ⟨m, []⟩ calls = some s) :
    ∃ n, run (tally root) (⟨m, []⟩, 0) calls = some (s, n) ∧
      n ≤ (calls.map fun call => call.1.allowance).sum := by
  obtain ⟨n, t, htally, -, hpays⟩ := run_tally 0 (empty_redBlackTree h₀) h
  rw [Nat.zero_add] at htally
  exact ⟨n, htally, le_trans (Nat.le_add_right ..) (hpays.trans (by simp))⟩

end Runs

def lifeOfFour : List (Op Nat Unit × Nat) :=
  [(.insert 1 none (.rbNode ()), 1), (.insert 2 (some 1) (.rbRight 1), 2),
    (.insert 3 (some 2) (.rbRight 2), 3), (.insert 4 (some 3) (.rbRight 3), 4), (.erase 2, 5)]

/-- Five turns for the insertions and none for the erasure, of sixteen that are allowed. -/
theorem turns_of_four :
    ∃ (s : State Nat (Option Nat × Color) Unit) (n : Nat),
      run (tally ()) (⟨⟨fun _ => (none, .red), fun _ => none, fun _ => none, fun _ => none⟩, []⟩, 0)
        lifeOfFour = some (s, n) ∧ n ≤ 16 := by
  have hsome : (run (step ())
      (⟨⟨fun _ => (none, .red), fun _ => none, fun _ => none, fun _ => none⟩, []⟩ :
        State Nat (Option Nat × Color) Unit) lifeOfFour).isSome = true := by decide +kernel
  obtain ⟨s, hs⟩ := Option.isSome_iff_exists.mp hsome
  obtain ⟨n, htally, hle⟩ := rebalancing_is_amortised rfl hs
  exact ⟨s, n, htally, hle⟩

end CommonProject.RBTree

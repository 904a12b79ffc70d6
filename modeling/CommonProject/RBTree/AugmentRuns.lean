import Mathlib.Algebra.Group.TypeTags.Basic
import CommonProject.RBTree.AugmentProducts
import CommonProject.RBTree.Runs

/-! Whole runs with callbacks that maintain products. -/
namespace CommonProject.RBTree
open Foundations Foundations.RedBlack Foundations.RedBlack.ColorTree
variable {α W ρ V : Type}

structure AugmentedState (α W ρ V : Type) extends State α W ρ where
  data : α → V

variable [Word α W] [DecidableEq α] [DecidableEq ρ]

/-- A client links a node with its own value, brings the way up to date, and rebalances. -/
def insertWith (val : α → V) (augment : AugmentCallbacks α W ρ (α → V)) (fuel : Nat) (x : α)
    (parent : Option α) (rbLink : Slot α ρ) (root : ρ) : AugProg α W ρ (α → V) Unit := do
  plain (rbLinkNode (some x) parent rbLink)
  modify fun aug => Function.update aug x (val x)
  augment.propagate parent none
  rbInsertWith augment.rotate fuel (some x) root

def Op.augmented (val : α → V) (augment : AugmentCallbacks α W ρ (α → V)) (root : ρ) (fuel : Nat) :
    Op α ρ → AugProg α W ρ (α → V) Unit
  | .insert x parent rbLink => insertWith val augment fuel x parent rbLink root
  | .erase x => rbEraseWith augment fuel (some x) root

def augmentedStep (val : α → V) (augment : Nat → AugmentCallbacks α W ρ (α → V)) (root : ρ)
    (s : AugmentedState α W ρ V) (call : Op α ρ × Nat) : Option (AugmentedState α W ρ V) :=
  if Legal root s.toState call.1 ∧ s.live.length < call.2 then
    (exec (call.1.augmented val (augment call.2) root call.2) s.data s.memory).toOption.map fun r =>
      ⟨⟨r.2, call.1.after s.live⟩, r.1.2⟩
  else none

section Erases
variable {val : α → V} {augment : AugmentCallbacks α W ρ (α → V)} {root : ρ}

private theorem erases_op (h : augment.Silent) (op : Op α ρ) (fuel : Nat) :
    Erases (op.augmented val augment root fuel) (op.program root fuel) := by
  cases op with
  | insert x parent rbLink =>
    exact .step fun _ => (silent_modify _).erases fun _ => (h.propagate ..).erases fun _ =>
      .step fun _ => erases_rbInsertLoop h.rotate ..
  | erase x => exact erases_rbErase h ..

end Erases

section Calls
variable [Monoid V] {val aug : α → V} {augment : AugmentCallbacks α W ρ (α → V)} {bound fuel : Nat}
  {m : Memory α W ρ} {root : ρ} {live : List α} {x : α} {ctx : List (Frame α)} {c : Color}
  {l r t : ColorTree α}

private theorem exec_insertWith (hcb : Maintains val augment bound)
    (h : RedBlackTree m root live (plug ctx .nil)) (hx : x ∉ live) (hfuel : live.length < fuel)
    (hbound : live.length ≤ bound) (hsum : Summed val aug (plug ctx .nil)) :
    ∃ aug' m', exec (insertWith val augment fuel x (above ctx) (slot root ctx) root) aug m =
        pure (((), aug'), m') ∧ Summed val aug' (insertFix ctx (.node .red .nil x .nil)) := by
  obtain ⟨N, hb⟩ := h.balanced
  obtain ⟨p, c, n, ha, hnil, -⟩ := hb.around
  cases hnil
  have hlen := length_le_toList_plug ctx (.nil : ColorTree α)
  rw [h.perm.length_eq] at hlen
  have hxc := h.notMem_around hx
  obtain ⟨m₁, hlink, hmoved⟩ := run_rbLinkNode (at_plug.mpr h.toAt) hxc
  have hnode : Summed val (Function.update aug x (val x)) (.node .red .nil x .nil) := by
    simp [Summed, product, toList]
  have hstale : Stale val (Function.update aug x (val x)) ctx :=
    (stale_congr fun z hz => Function.update_of_ne (ne_of_mem_of_not_mem hz hxc) ..).mpr
      (summed_plug.mp hsum).2.stale
  obtain ⟨aug₁, hprop, hsum₁⟩ := exec_propagate hcb hmoved.toAt (hlen.trans hbound) hnode hstale
  obtain ⟨k, rfl⟩ := Nat.exists_eq_add_one_of_ne_zero (Nat.ne_zero_of_lt hfuel)
  obtain ⟨aug', m', hloop, hsum'⟩ := exec_rbInsertLoop hcb ⟨hmoved.toAt, _, _, ha, .red .nil .nil⟩
    hsum₁ (hlen.trans (Nat.le_of_lt_succ hfuel))
  refine ⟨aug', m', ?_, hsum'⟩
  have hset : exec (modify fun aug => Function.update aug x (val x)) aug m₁ =
    (pure (((), Function.update aug x (val x)), m₁) : Except Fault _) := rfl
  simp only [insertWith, rbInsertWith, exec_bind, exec_plain, hlink, pure_bind, hset, hprop,
    run_rbRedParent hmoved.rep.1]
  exact hloop

private theorem exec_rbEraseWith (hcb : Maintains val augment bound)
    (h : RedBlackTree m root live (plug ctx (.node c l x r))) (hfuel : live.length ≤ fuel)
    (hbound : live.length ≤ bound) (hsum : Summed val aug (plug ctx (.node c l x r))) :
    ∃ aug' m', exec (rbEraseWith augment fuel (some x) root) aug m = pure (((), aug'), m') ∧
      Summed val aug' (eraseNode ctx c l r) := by
  obtain ⟨N, hb⟩ := h.balanced
  have hlen := h.erase_perm.2
  have hat := at_plug.mpr h.toAt
  obtain ⟨m₁, hplain, hmoved⟩ := run_rbEraseAugmented hat (hlen.trans hfuel)
  obtain ⟨b, aug₁, m₂, hexec, hsum₁⟩ :=
    exec_rbEraseAugmented hcb hat (hlen.trans hfuel) (hlen.trans hbound) hsum
  obtain ⟨rfl, rfl⟩ := (erases_rbEraseAugmented hcb.toSilent ..).outcome_eq hexec hplain
  have hdeficit := splice_deficit hb
  simp only [rbEraseWith, eraseNode, exec_bind, hexec, pure_bind]
  revert hmoved hsum₁ hdeficit hlen
  generalize (splice ctx c l r).1 = ctx', (splice ctx c l r).2.1 = t', (splice ctx c l r).2.2 = deficit
  intro hlen hsum₁ hmoved hdeficit
  cases deficit with
  | false => exact ⟨aug₁, m₂, rfl, hsum₁⟩
  | true =>
    obtain ⟨rfl, p, ha⟩ := hdeficit rfl
    cases ctx' with
    | nil => exact ⟨aug₁, m₂, rfl, hsum₁⟩
    | cons f ctx' =>
      exact exec_rbEraseColorLoop hcb ⟨hmoved.toAt, ⟨p, 0, ha, .nil⟩, List.cons_ne_nil _ _⟩ hsum₁
        (hlen.trans hfuel)

end Calls

section Steps
variable [Monoid V] {val aug : α → V} {root : ρ}

/-- A legal call comes to an end, with a red-black tree of the live nodes and its products. -/
private theorem augmented_run {augment : AugmentCallbacks α W ρ (α → V)}
    {s : AugmentedState α W ρ V}
    {t : ColorTree α} {op : Op α ρ} {fuel : Nat} (hcb : Maintains val augment fuel)
    (h : RedBlackTree s.memory root s.live t) (hsum : Summed val s.data t)
    (hlegal : Legal root s.toState op) (hfuel : s.live.length < fuel) :
    ∃ aug' m' t', exec (op.augmented val augment root fuel) s.data s.memory = pure (((), aug'), m') ∧
      RedBlackTree m' root (op.after s.live) t' ∧ Summed val aug' t' := by
  have herases : Erases (op.augmented val augment root fuel) (op.program root fuel) :=
    erases_op hcb.toSilent op fuel
  cases op with
  | insert x parent rbLink =>
    obtain ⟨hx, hplace, hnull⟩ := hlegal
    obtain ⟨ctx, rfl, rfl, rfl⟩ := onTree_place h.toAt h.perm hplace hnull
    obtain ⟨m', hrun, htree⟩ := insert_redBlackTree h hx hfuel
    obtain ⟨aug', m₁, hexec, hsum'⟩ := exec_insertWith hcb h hx hfuel hfuel.le hsum
    obtain ⟨-, rfl⟩ := herases.outcome_eq hexec hrun
    exact ⟨aug', m₁, _, hexec, htree, hsum'⟩
  | erase x =>
    obtain ⟨ctx, c, l, r, rfl⟩ := exists_plug (h.perm.mem_iff.mpr hlegal)
    obtain ⟨m', hrun, htree⟩ := erase_redBlackTree h hfuel.le
    obtain ⟨aug', m₁, hexec, hsum'⟩ := exec_rbEraseWith hcb h hfuel.le hfuel.le hsum
    obtain ⟨-, rfl⟩ := herases.outcome_eq hexec hrun
    exact ⟨aug', m₁, _, hexec, htree, hsum'⟩

variable {augment : Nat → AugmentCallbacks α W ρ (α → V)} {s s' : AugmentedState α W ρ V}
  {call : Op α ρ × Nat}

omit [Monoid V] in
private theorem augmentedStep_eq_some : augmentedStep val augment root s call = some s' ↔
    (Legal root s.toState call.1 ∧ s.live.length < call.2) ∧ ∃ aug' m',
      exec (call.1.augmented val (augment call.2) root call.2) s.data s.memory =
        pure (((), aug'), m') ∧ ⟨⟨m', call.1.after s.live⟩, aug'⟩ = s' := by
  rw [augmentedStep, Option.ite_none_right_eq_some, Option.map_eq_some_iff]
  refine and_congr_right fun _ => ?_
  cases exec (call.1.augmented val (augment call.2) root call.2) s.data s.memory with
  | error e => simp [Except.toOption, pure, Except.pure]
  | ok r =>
    constructor
    · rintro ⟨_, ⟨⟩, rfl⟩
      exact ⟨r.1.2, r.2, rfl, rfl⟩
    · rintro ⟨aug', m', ⟨⟩, rfl⟩
      exact ⟨_, rfl, rfl⟩

/-- Without the data, it is a step of the plain tree. -/
private theorem augmentedStep_step (hcb : ∀ fuel, Maintains val (augment fuel) fuel)
    (h : augmentedStep val augment root s call = some s') :
    step root s.toState call = some s'.toState := by
  obtain ⟨⟨hlegal, -⟩, aug', m', hexec, rfl⟩ := augmentedStep_eq_some.mp h
  exact step_eq_some.mpr ⟨hlegal, m', erases_op (hcb _).toSilent _ _ hexec, rfl⟩

private theorem augmentedStep_products (hcb : ∀ fuel, Maintains val (augment fuel) fuel)
    (h : ∃ t, RedBlackTree s.memory root s.live t ∧ Summed val s.data t)
    (hstep : augmentedStep val augment root s call = some s') :
    ∃ t, RedBlackTree s'.memory root s'.live t ∧ Summed val s'.data t := by
  obtain ⟨t, ht, hsum⟩ := h
  obtain ⟨⟨hlegal, hfuel⟩, aug', m', hexec, rfl⟩ := augmentedStep_eq_some.mp hstep
  obtain ⟨aug₁, m₁, t', hexec', htree, hsum'⟩ := augmented_run (hcb _) ht hsum hlegal hfuel
  cases hexec'.symm.trans hexec
  exact ⟨t', htree, hsum'⟩

/-- In every run from `RB_ROOT` with callbacks that maintain products, the nodes are linked as after
the same calls without callbacks, every live node holds the product over its subtree, and so the root
the product over all live nodes in order, and every legal call comes to an end. -/
theorem products_in_every_run {m : Memory α W ρ} {calls : List (Op α ρ × Nat)}
    (hcb : ∀ fuel, Maintains val (augment fuel) fuel) (h₀ : m.rbNode root = none)
    (h : run (augmentedStep val augment root) ⟨⟨m, []⟩, aug⟩ calls = some s) :
    run (step root) ⟨m, []⟩ calls = some s.toState ∧
    (∃ t, RedBlackTree s.memory root s.live t ∧ Summed val s.data t ∧
      augOf s.data (s.memory.rbNode root) = (t.toList.map val).prod) ∧
    ∀ op fuel, Legal root s.toState op → s.live.length < fuel →
      ∃ s', augmentedStep val augment root s (op, fuel) = some s' := by
  have hplain : run (step root) ⟨m, []⟩ calls = some s.toState :=
    run_map (f := AugmentedState.toState) (fun _ _ _ hstep => augmentedStep_step hcb hstep) h
  have hreach : Reachable (augmentedStep val augment root) ⟨⟨m, []⟩, aug⟩ s := ⟨calls, h⟩
  obtain ⟨t, ht, hsum⟩ := hreach.invariant
    (P := fun s => ∃ t, RedBlackTree s.memory root s.live t ∧ Summed val s.data t)
    ⟨.nil, empty_redBlackTree h₀, trivial⟩ (augmentedStep_products hcb)
  refine ⟨hplain, ⟨t, ht, hsum, by rw [ht.rbNode]; exact hsum.augOf_root⟩, ?_⟩
  intro op fuel hlegal hfuel
  obtain ⟨aug', m', t', hexec, -⟩ := augmented_run (hcb fuel) ht hsum hlegal hfuel
  exact ⟨_, augmentedStep_eq_some.mpr ⟨⟨hlegal, hfuel⟩, aug', m', hexec, rfl⟩⟩

/-- Every node counts once, and so the products are the sizes of the subtrees. -/
def countOnce : Address → Multiplicative Nat := fun _ => .ofAdd 1

/-- Three nodes with the sizes of their subtrees, the first of which is erased as the root. -/
theorem sizes_after_erasure :
    ∃ s : AugmentedState Address (BitVec 64) Unit (Multiplicative Nat),
      s.live = [⟨48#64, by decide⟩, ⟨24#64, by decide⟩] ∧
      augOf s.data (s.memory.rbNode ()) = .ofAdd 2 := by
  have hlive : (run (augmentedStep countOnce (productCallbacks countOnce) ())
      (⟨⟨⟨fun _ => 0#64, fun _ => none, fun _ => none, fun _ => none⟩, []⟩, fun _ => 1⟩ :
        AugmentedState Address (BitVec 64) Unit (Multiplicative Nat))
      [(.insert ⟨8#64, by decide⟩ none (.rbNode ()), 1),
        (.insert ⟨48#64, by decide⟩ (some ⟨8#64, by decide⟩) (.rbRight ⟨8#64, by decide⟩), 2),
        (.insert ⟨24#64, by decide⟩ (some ⟨48#64, by decide⟩) (.rbLeft ⟨48#64, by decide⟩), 3),
        (.erase ⟨8#64, by decide⟩, 4)]).map (·.live) =
      some [⟨48#64, by decide⟩, ⟨24#64, by decide⟩] := by decide +kernel
  obtain ⟨s, hs, hlive⟩ := Option.map_eq_some_iff.mp hlive
  obtain ⟨-, ⟨t, ht, -, hroot⟩, -⟩ :=
    products_in_every_run (productCallbacks_maintains countOnce) rfl hs
  have hlen : t.toList.length = 2 := ht.perm.length_eq.trans (congrArg List.length hlive)
  have hcount : t.toList.map countOnce = List.replicate 2 (.ofAdd 1) := hlen ▸ List.map_const' ..
  refine ⟨s, hlive, ?_⟩
  rw [hroot, hcount]
  rfl

end Steps

end CommonProject.RBTree

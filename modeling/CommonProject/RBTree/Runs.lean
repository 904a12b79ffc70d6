import CommonProject.Foundations.Population
import CommonProject.RBTree.Splice
import CommonProject.RBTree.Turns
import CommonProject.RBTree.Words

/-! Whole runs of insertions at any place and erasures. -/
namespace CommonProject.RBTree
open Foundations Foundations.RedBlack Foundations.RedBlack.ColorTree
variable {α W ρ : Type}

inductive Op (α ρ : Type)
  | insert (x : α) (parent : Option α) (rbLink : Slot α ρ)
  | erase (x : α)
  deriving DecidableEq, Repr

/-- The memory, and the nodes inserted and not erased since, in the order of their insertion. -/
structure State (α W ρ : Type) where
  memory : Memory α W ρ
  live : List α

/-- The link belongs to the tree, below the given parent. -/
def OnTree (root : ρ) (live : List α) (parent : Option α) : Slot α ρ → Prop
  | .rbNode r => r = root ∧ parent = none
  | .rbRight y => y ∈ live ∧ parent = some y
  | .rbLeft y => y ∈ live ∧ parent = some y

/-- A node in no tree may be linked at an empty place, and a linked node may be erased. -/
def Legal (root : ρ) (s : State α W ρ) : Op α ρ → Prop
  | .insert x parent rbLink =>
    x ∉ s.live ∧ OnTree root s.live parent rbLink ∧ s.memory.read rbLink = none
  | .erase x => x ∈ s.live

variable [DecidableEq α] [DecidableEq ρ]

instance (root : ρ) (live : List α) (parent : Option α) (sl : Slot α ρ) :
    Decidable (OnTree root live parent sl) :=
  match sl with
  | .rbNode r => inferInstanceAs (Decidable (r = root ∧ parent = none))
  | .rbRight y => inferInstanceAs (Decidable (y ∈ live ∧ parent = some y))
  | .rbLeft y => inferInstanceAs (Decidable (y ∈ live ∧ parent = some y))

instance (root : ρ) (s : State α W ρ) (op : Op α ρ) : Decidable (Legal root s op) :=
  match op with
  | .insert x parent rbLink =>
    inferInstanceAs (Decidable (x ∉ s.live ∧ OnTree root s.live parent rbLink ∧
      s.memory.read rbLink = none))
  | .erase x => inferInstanceAs (Decidable (x ∈ s.live))

variable [Word α W]

def Op.program (root : ρ) (fuel : Nat) : Op α ρ → Prog α W ρ Unit
  | .insert x parent rbLink => rbInsert fuel (some x) parent rbLink root
  | .erase x => rbErase fuel (some x) root

def Op.after (live : List α) : Op α ρ → List α
  | .insert x _ _ => live ++ [x]
  | .erase x => live.erase x

def outcome (p : Prog α W ρ Unit) (m : Memory α W ρ) : Option (Memory α W ρ) :=
  (p.run m).toOption.map Prod.snd

/-- One legal call, its loops cut off after so many turns. A call that faults or is cut off makes
no step. -/
def step (root : ρ) (s : State α W ρ) (call : Op α ρ × Nat) : Option (State α W ρ) :=
  if Legal root s call.1 then
    (outcome (call.1.program root call.2) s.memory).map fun m => ⟨m, call.1.after s.live⟩
  else none

structure RedBlackTree (m : Memory α W ρ) (root : ρ) (live : List α) (t : ColorTree α) : Prop where
  rbNode : m.rbNode root = t.root
  rep : Rep m none t
  nodup : t.toList.Nodup
  perm : t.toList.Perm live
  balanced : ∃ N, Balanced t .black N

section Places
variable {m : Memory α W ρ} {root : ρ} {t : ColorTree α} {x y : α} {d : Dir}

omit [DecidableEq α] [DecidableEq ρ] in
/-- An empty link of a node is an empty place in the tree. -/
private theorem empty_place (h : At m root [] t) (hy : y ∈ t.toList) (hnull : m.child d y = none) :
    ∃ c far ctx, t = plug (⟨d, c, y, far⟩ :: ctx) .nil := by
  obtain ⟨ctx, c, l, r, rfl⟩ := exists_plug hy
  have hat := at_plug.mpr h
  rw [node_eq_branch d] at hat
  have hnil := (rep_branch.mp hat.rep).2.1
  rw [hnull, eq_comm, root_eq_none] at hnil
  refine ⟨c, (ColorTree.node c l y r).child d.flip, ctx, ?_⟩
  rw [plug, Frame.fill, ← hnil, ← node_eq_branch]

omit [DecidableEq α] [DecidableEq ρ] in
/-- The places for a new node are the empty links of the tree. -/
theorem onTree_place {live : List α} {parent : Option α} {rbLink : Slot α ρ} (h : At m root [] t)
    (hperm : t.toList.Perm live) (hplace : OnTree root live parent rbLink)
    (hnull : m.read rbLink = none) :
    ∃ ctx, t = plug ctx .nil ∧ parent = above ctx ∧ rbLink = slot root ctx := by
  cases rbLink with
  | rbNode r =>
    obtain ⟨rfl, rfl⟩ := hplace
    have hnil : none = t.root := hnull.symm.trans h.link
    exact ⟨[], root_eq_none.mp hnil.symm, rfl, rfl⟩
  | rbRight y =>
    obtain ⟨hy, rfl⟩ := hplace
    obtain ⟨c, far, ctx, rfl⟩ := empty_place (d := .right) h (hperm.mem_iff.mpr hy) hnull
    exact ⟨_, rfl, rfl, rfl⟩
  | rbLeft y =>
    obtain ⟨hy, rfl⟩ := hplace
    obtain ⟨c, far, ctx, rfl⟩ := empty_place (d := .left) h (hperm.mem_iff.mpr hy) hnull
    exact ⟨_, rfl, rfl, rfl⟩

end Places
section Calls
variable {m : Memory α W ρ} {root : ρ} {live : List α} {t : ColorTree α} {x : α} {ctx : List (Frame α)}
  {c : Color} {l r : ColorTree α} {fuel : Nat}

omit [DecidableEq α] [DecidableEq ρ] in
theorem RedBlackTree.toAt (h : RedBlackTree m root live t) : At m root [] t :=
  ⟨trivial, h.rbNode, h.rep, h.nodup⟩

omit [DecidableEq α] [DecidableEq ρ] in
theorem At.redBlackTree (h : At m root [] t) (hperm : t.toList.Perm live)
    (hb : ∃ N, Balanced t .black N) : RedBlackTree m root live t :=
  ⟨h.link, h.rep, h.nodup, hperm, hb⟩

omit [DecidableEq α] [DecidableEq ρ] in
theorem RedBlackTree.notMem_around (h : RedBlackTree m root live (plug ctx .nil)) (hx : x ∉ live) :
    x ∉ around ctx := fun hxc => hx (h.perm.mem_iff.mp (mem_plug.mpr (.inr hxc)))

omit [DecidableEq ρ] in
/-- The nodes after an erasure, and how far down its place is. -/
theorem RedBlackTree.erase_perm (h : RedBlackTree m root live (plug ctx (.node c l x r))) :
    (eraseNode ctx c l r).toList.Perm (live.erase x) ∧
      (splice ctx c l r).1.length ≤ live.length := by
  have hlist := toList_eraseNode_eq_erase h.nodup
  have hlen := length_le_toList_plug (splice ctx c l r).1 (splice ctx c l r).2.1
  rw [toList_splice, ← toList_eraseNode, hlist, (h.perm.erase x).length_eq] at hlen
  exact ⟨hlist ▸ h.perm.erase x, hlen.trans (List.erase_sublist ..).length_le⟩

/-- A new node in an empty place. -/
theorem insert_moved (h : RedBlackTree m root live (plug ctx .nil)) (hx : x ∉ live)
    (hfuel : live.length < fuel) :
    ∃ m', (rbInsert fuel (some x) (above ctx) (slot root ctx) root).run m = .ok ((), m') ∧
      Moved m m' root [] (insertFix ctx (.node .red .nil x .nil)) := by
  obtain ⟨N, hb⟩ := h.balanced
  have hlen := length_le_toList_plug ctx (.nil : ColorTree α)
  rw [h.perm.length_eq] at hlen
  exact run_rbInsert (at_plug.mpr h.toAt) (h.notMem_around hx) hb (Nat.lt_of_le_of_lt hlen hfuel)

theorem insert_redBlackTree (h : RedBlackTree m root live (plug ctx .nil)) (hx : x ∉ live)
    (hfuel : live.length < fuel) :
    ∃ m', (rbInsert fuel (some x) (above ctx) (slot root ctx) root).run m = .ok ((), m') ∧
      RedBlackTree m' root (live ++ [x]) (insertFix ctx (.node .red .nil x .nil)) := by
  obtain ⟨N, hb⟩ := h.balanced
  obtain ⟨m', hrun, hmoved⟩ := insert_moved h hx hfuel
  refine ⟨m', hrun, hmoved.toAt.redBlackTree ?_ (insert_balanced hb)⟩
  have hperm := h.perm
  rw [toList_plug, toList, List.append_nil] at hperm
  rw [toList_insert]
  exact List.perm_middle.trans ((hperm.cons x).trans (List.perm_append_singleton x live).symm)

/-- A linked node out of its place. -/
theorem erase_moved (h : RedBlackTree m root live (plug ctx (.node c l x r)))
    (hfuel : live.length ≤ fuel) :
    ∃ m', (rbErase fuel (some x) root).run m = .ok ((), m') ∧
      Moved m m' root [] (eraseNode ctx c l r) := by
  obtain ⟨N, hb⟩ := h.balanced
  exact run_rbErase (at_plug.mpr h.toAt) hb (h.erase_perm.2.trans hfuel)

theorem erase_redBlackTree (h : RedBlackTree m root live (plug ctx (.node c l x r)))
    (hfuel : live.length ≤ fuel) :
    ∃ m', (rbErase fuel (some x) root).run m = .ok ((), m') ∧
      RedBlackTree m' root (live.erase x) (eraseNode ctx c l r) := by
  obtain ⟨N, hb⟩ := h.balanced
  obtain ⟨m', hrun, hmoved⟩ := erase_moved h hfuel
  exact ⟨m', hrun, hmoved.toAt.redBlackTree h.erase_perm.1 (eraseNode_balanced hb)⟩

/-- What the first half of an erasure leaves: a red-black tree, or the start of the loop. -/
theorem erase_begins (h : RedBlackTree m root live t) (hx : x ∈ live) (hfuel : live.length ≤ fuel) :
    ∃ rebalance, ∃ m₁ : Memory α W ρ,
      (rbEraseAugmented fuel (some x) root).run m = .ok (rebalance, m₁) ∧
      ((rebalance = none ∧ ∃ t', RedBlackTree m₁ root (live.erase x) t' ∧
          t'.toList = t.toList.erase x) ∨
        ∃ ctx, rebalance = above ctx ∧ EraseHead m₁ root ctx .nil ∧
          (plug ctx .nil).toList = t.toList.erase x) := by
  obtain ⟨N, hb⟩ := h.balanced
  obtain ⟨ctx, c, l, r, rfl⟩ := exists_plug (h.perm.mem_iff.mpr hx)
  obtain ⟨m₁, hrun, hmoved⟩ := run_rbEraseAugmented (at_plug.mpr h.toAt)
    (h.erase_perm.2.trans hfuel)
  have hdeficit := splice_deficit hb
  have hbal := eraseNode_balanced hb
  have hlist : (plug (splice ctx c l r).1 (splice ctx c l r).2.1).toList =
      (plug ctx (.node c l x r)).toList.erase x := by
    rw [toList_splice, ← toList_eraseNode, toList_eraseNode_eq_erase h.nodup]
  have hperm := h.perm.erase x
  rw [← hlist] at hperm ⊢
  simp only [eraseNode] at hbal
  revert hrun hmoved hdeficit hbal hperm
  generalize (splice ctx c l r).1 = ctx', (splice ctx c l r).2.1 = t', (splice ctx c l r).2.2 = deficit
  intro hrun hmoved hdeficit hbal hperm
  have hat := at_plug.mp hmoved.toAt
  refine ⟨_, m₁, hrun, ?_⟩
  cases deficit with
  | false => exact .inl ⟨rfl, _, hat.redBlackTree hperm hbal, rfl⟩
  | true =>
    obtain ⟨rfl, p, ha⟩ := hdeficit rfl
    cases ctx' with
    | nil => exact .inl ⟨rfl, _, hat.redBlackTree hperm ⟨0, .nil⟩, rfl⟩
    | cons f ctx' =>
      exact .inr ⟨_, rfl, ⟨hmoved.toAt, ⟨p, 0, ha, .nil⟩, List.cons_ne_nil _ _⟩, rfl⟩

end Calls
section Steps
variable {root : ρ} {s s' : State α W ρ} {t : ColorTree α} {op : Op α ρ}

/-- A legal call comes to an end, and leaves a red-black tree of the nodes that are live then. -/
theorem legal_run (fuel : Nat) (h : RedBlackTree s.memory root s.live t) (hlegal : Legal root s op)
    (hfuel : s.live.length < fuel) :
    ∃ m' t', (op.program root fuel).run s.memory = .ok ((), m') ∧
      RedBlackTree m' root (op.after s.live) t' := by
  cases op with
  | insert x parent rbLink =>
    obtain ⟨hx, hplace, hnull⟩ := hlegal
    obtain ⟨ctx, rfl, rfl, rfl⟩ := onTree_place h.toAt h.perm hplace hnull
    obtain ⟨m', hrun, htree⟩ := insert_redBlackTree h hx hfuel
    exact ⟨m', _, hrun, htree⟩
  | erase x =>
    obtain ⟨ctx, c, l, r, rfl⟩ := exists_plug (h.perm.mem_iff.mpr hlegal)
    obtain ⟨m', hrun, htree⟩ := erase_redBlackTree h hfuel.le
    exact ⟨m', _, hrun, htree⟩

theorem settled_program (op : Op α ρ) (root : ρ) :
    Settled fun k => (op.program root k : Prog α W ρ Unit) := by
  cases op with
  | insert x parent rbLink => exact settled_rbInsert ..
  | erase x => exact settled_rbErase ..

/-- A legal call never faults, it can only be cut off. -/
theorem legal_fault {fuel : Nat} {e : Fault} (h : RedBlackTree s.memory root s.live t)
    (hlegal : Legal root s op) (he : (op.program root fuel).run s.memory = .error e) :
    e = .outOfFuel := by
  by_contra hne
  obtain ⟨m', -, hrun, -⟩ := legal_run (s.live.length + fuel + 1) h hlegal (by omega)
  have hsame := settled_program op root (by omega : fuel ≤ s.live.length + fuel + 1)
    (by rw [he]; exact fun heq => hne (Except.error.inj heq))
  cases (hrun.symm.trans hsame).trans he

omit [DecidableEq α] [DecidableEq ρ] [Word α W] in
theorem outcome_eq_some {p : Prog α W ρ Unit} {m m' : Memory α W ρ} :
    outcome p m = some m' ↔ p.run m = .ok ((), m') := by
  rw [outcome]
  cases p.run m with
  | error e => simp [Except.toOption]
  | ok r => simp [Except.toOption, Prod.ext_iff]

theorem step_eq_some {call : Op α ρ × Nat} : step root s call = some s' ↔
    Legal root s call.1 ∧ ∃ m, (call.1.program root call.2).run s.memory = .ok ((), m) ∧
      ⟨m, call.1.after s.live⟩ = s' := by
  rw [step, Option.ite_none_right_eq_some, Option.map_eq_some_iff]
  simp only [outcome_eq_some]

/-- Every step keeps the red-black tree. -/
theorem step_redBlackTree {call : Op α ρ × Nat} (h : ∃ t, RedBlackTree s.memory root s.live t)
    (hstep : step root s call = some s') : ∃ t, RedBlackTree s'.memory root s'.live t := by
  obtain ⟨t, h⟩ := h
  obtain ⟨hlegal, m, hrun, rfl⟩ := step_eq_some.mp hstep
  obtain ⟨m', t', hrun', htree⟩ :=
    legal_run (s.live.length + call.2 + 1) h hlegal (by omega)
  have hmore := (settled_program call.1 root).stable (by omega : call.2 ≤ s.live.length + call.2 + 1) hrun
  obtain rfl : m' = m := congrArg Prod.snd (Except.ok.inj (hrun'.symm.trans hmore))
  exact ⟨t', htree⟩

omit [DecidableEq α] [DecidableEq ρ] in
/-- The parent field of a child points back to the node that links it. -/
theorem RedBlackTree.parent_of_child {m : Memory α W ρ} {live : List α} {x y : α} {d : Dir}
    (h : RedBlackTree m root live t) (hx : x ∈ live) (hy : m.child d x = some y) :
    y ∈ live ∧ Word.parent (m.rbParentColor y) = some x := by
  obtain ⟨ctx, c, l, r, rfl⟩ := exists_plug (h.perm.mem_iff.mpr hx)
  rw [node_eq_branch d] at h
  generalize (ColorTree.node c l x r).child d = near at h
  have hat := at_plug.mpr h.toAt
  obtain ⟨-, hnear, -, hrep, -⟩ := rep_branch.mp hat.rep
  have hroot : near.root = some y := hnear.symm.trans hy
  refine ⟨h.perm.mem_iff.mp (mem_plug.mpr (.inl (mem_branch.mpr (.inr (.inl (root_mem hroot)))))), ?_⟩
  cases near with
  | nil => cases hroot
  | node cn a v b =>
    obtain rfl : v = y := Option.some.inj hroot
    rw [hrep.1, Word.parent_pack]

omit [DecidableEq α] [DecidableEq ρ] in
private theorem RedBlackTree.parent_of_root {m : Memory α W ρ} {live : List α} {x : α}
    (h : RedBlackTree m root live t) (hx : m.rbNode root = some x) :
    Word.parent (m.rbParentColor x) = (none : Option α) := by
  cases t with
  | nil => cases h.rbNode.symm.trans hx
  | node c l v r =>
    obtain rfl : v = x := Option.some.inj (h.rbNode.symm.trans hx)
    rw [h.rep.1, Word.parent_pack]

omit [DecidableEq α] [DecidableEq ρ] in
/-- `RB_ROOT`. -/
theorem empty_redBlackTree {m : Memory α W ρ} (h : m.rbNode root = none) :
    RedBlackTree m root [] .nil :=
  ⟨h, trivial, .nil, .nil, 0, .nil⟩

theorem reachable_redBlackTree {m : Memory α W ρ} (h₀ : m.rbNode root = none)
    (h : Reachable (step root) ⟨m, []⟩ s) : ∃ t, RedBlackTree s.memory root s.live t :=
  h.invariant (P := fun s => ∃ t, RedBlackTree s.memory root s.live t)
    ⟨_, empty_redBlackTree h₀⟩ step_redBlackTree

/-- In every run from `RB_ROOT`, the tree is red-black and holds the live nodes, parents are linked
back, and every legal call comes to an end. -/
theorem red_black_in_every_run {m : Memory α W ρ} (h₀ : m.rbNode root = none)
    (h : Reachable (step root) ⟨m, []⟩ s) :
    (∃ t, RedBlackTree s.memory root s.live t) ∧
    (∀ x, s.memory.rbNode root = some x →
      Word.parent (s.memory.rbParentColor x) = (none : Option α)) ∧
    (∀ x ∈ s.live, ∀ d y, s.memory.child d x = some y →
      y ∈ s.live ∧ Word.parent (s.memory.rbParentColor y) = some x) ∧
    ∀ op fuel, Legal root s op → s.live.length < fuel →
      ∃ s', step root s (op, fuel) = some s' := by
  obtain ⟨t, ht⟩ := reachable_redBlackTree h₀ h
  refine ⟨⟨t, ht⟩, fun x => ht.parent_of_root, fun x hx d y => ht.parent_of_child hx, ?_⟩
  intro op fuel hlegal hfuel
  obtain ⟨m', t', hrun, -⟩ := legal_run fuel ht hlegal hfuel
  exact ⟨_, step_eq_some.mpr ⟨hlegal, m', hrun, rfl⟩⟩

/-- Three nodes at real addresses, the first of which is erased as the root. -/
theorem red_black_after_erasure :
    ∃ s : State Address (BitVec 64) Unit, ∃ t, RedBlackTree s.memory () s.live t ∧
      s.live = [⟨48#64, by decide⟩, ⟨24#64, by decide⟩] := by
  have hr := Reachable.get (step ()) (⟨⟨fun _ => 0#64, fun _ => none, fun _ => none, fun _ => none⟩, []⟩ :
      State Address (BitVec 64) Unit)
    [(.insert ⟨8#64, by decide⟩ none (.rbNode ()), 1),
      (.insert ⟨48#64, by decide⟩ (some ⟨8#64, by decide⟩) (.rbRight ⟨8#64, by decide⟩), 2),
      (.insert ⟨24#64, by decide⟩ (some ⟨48#64, by decide⟩) (.rbLeft ⟨48#64, by decide⟩), 3),
      (.erase ⟨8#64, by decide⟩, 3)] rfl
  obtain ⟨t, ht⟩ := (red_black_in_every_run rfl hr).1
  exact ⟨_, t, ht, rfl⟩

def threeNodes : State Address (BitVec 64) Unit :=
  (run (step ()) ⟨⟨fun _ => 0#64, fun _ => none, fun _ => none, fun _ => none⟩, []⟩
    [(.insert ⟨8#64, by decide⟩ none (.rbNode ()), 1),
      (.insert ⟨48#64, by decide⟩ (some ⟨8#64, by decide⟩) (.rbRight ⟨8#64, by decide⟩), 2),
      (.insert ⟨96#64, by decide⟩ (some ⟨48#64, by decide⟩) (.rbRight ⟨48#64, by decide⟩), 3)]).get rfl

theorem reachable_threeNodes : Reachable (step ())
    ⟨⟨fun _ => 0#64, fun _ => none, fun _ => none, fun _ => none⟩, []⟩ threeNodes :=
  Reachable.get ..

end Steps
end CommonProject.RBTree

import CommonProject.Foundations.Lockstep
import CommonProject.Foundations.Mirror
import CommonProject.RBTree.Frame
import CommonProject.RBTree.Walks

/-! What the code does for the left side and for the right side is the same in a mirror. -/
namespace CommonProject.RBTree
open Foundations Foundations.RedBlack Foundations.RedBlack.ColorTree
variable {α W ρ β : Type}

def Memory.mirror (m : Memory α W ρ) : Memory α W ρ :=
  { m with rbRight := m.rbLeft, rbLeft := m.rbRight }

private theorem sameAt_mirror {m m' : Memory α W ρ} {x : α} :
    SameAt m.mirror m'.mirror x ↔ SameAt m m' x := by
  simp only [SameAt, Memory.mirror]
  tauto

section Programs

/-- The second program does in a mirror what the first one does. -/
abbrev Mirrored (p q : Prog α W ρ β) : Prop := Lockstep Memory.mirror (fun _ : Fault => False) p q

private theorem mirrored_loadNode (root : ρ) :
    Mirrored (loadNode root : Prog α W ρ _) (loadNode root) := .of_eq fun _ => rfl

private theorem mirrored_loadParentColor (p : Option α) :
    Mirrored (loadParentColor p : Prog α W ρ W) (loadParentColor p) := by
  apply Lockstep.of_eq
  intro m
  cases p <;> rfl

private theorem mirrored_loadChild (d : Dir) (p : Option α) :
    Mirrored (loadChild d p : Prog α W ρ _) (loadChild d.flip p) := by
  apply Lockstep.of_eq
  intro m
  cases p <;> cases d <;> rfl

private theorem mirrored_endLoop (d : Dir) (fuel : Nat) (n : Option α) :
    Mirrored (endLoop d fuel n : Prog α W ρ _) (endLoop d.flip fuel n) := by
  induction fuel generalizing n with
  | zero => exact .throw _
  | succ fuel ih => exact .bind (mirrored_loadChild d n) fun tmp => .ite (ih tmp) (.pure _)

private theorem mirrored_startSide (d : Dir) (fuel : Nat) (root : ρ) :
    Mirrored (startSide d fuel root : Prog α W ρ _) (startSide d.flip fuel root) :=
  .bind (mirrored_loadNode root) fun n => .ite (.pure _) (mirrored_endLoop d fuel n)

private theorem mirrored_rbFirst (fuel : Nat) (root : ρ) :
    Mirrored (rbLast fuel root : Prog α W ρ _) (rbFirst fuel root) := by
  rw [rbFirst_eq, rbLast_eq]
  exact mirrored_startSide .right fuel root

variable [Word α W] [DecidableEq α]

private theorem mirrored_climbLoop (d : Dir) (fuel : Nat) (node : Option α) :
    Mirrored (climbLoop d fuel node : Prog α W ρ _) (climbLoop d.flip fuel node) := by
  induction fuel generalizing node with
  | zero => exact .throw _
  | succ fuel ih =>
    refine .bind (.bind (mirrored_loadParentColor node) fun _ => .pure _) fun parent => ?_
    refine .ite (.bind (mirrored_loadChild d.flip parent) fun tmp => ?_) (.pure _)
    exact .ite (ih parent) (.pure _)

private theorem mirrored_stepSide [DecidableEq W] (d : Dir) (fuel : Nat) (node : Option α) :
    Mirrored (stepSide d fuel node : Prog α W ρ _) (stepSide d.flip fuel node) := by
  refine .bind (.bind (mirrored_loadParentColor node) fun _ => .pure _) fun empty => ?_
  refine .ite (.pure _) (.bind (mirrored_loadChild d.flip node) fun far => ?_)
  exact .ite (mirrored_endLoop d fuel far) (mirrored_climbLoop d fuel node)

private theorem mirrored_rbNext [DecidableEq W] (fuel : Nat) (node : Option α) :
    Mirrored (rbPrev fuel node : Prog α W ρ _) (rbNext fuel node) := by
  rw [rbNext_eq, rbPrev_eq]
  exact mirrored_stepSide .right fuel node

end Programs

section Trees
variable [Word α W] {m m' : Memory α W ρ} {root : ρ} {p : Option α} {t : ColorTree α}
  {ctx : List (Frame α)}

private theorem rep_mirror : Rep m.mirror p t.mirror ↔ Rep m p t := by
  induction t generalizing p with
  | nil => rfl
  | node c l x r ihl ihr =>
    have hl : m.mirror.rbLeft = m.rbRight := rfl
    have hr : m.mirror.rbRight = m.rbLeft := rfl
    have hw : m.mirror.rbParentColor = m.rbParentColor := rfl
    simp only [ColorTree.mirror, Rep, ihl, ihr, hl, hr, hw, root_mirror]
    tauto

omit [Word α W] in
private theorem above_mirror (ctx : List (Frame α)) : above (ctx.map Frame.mirror) = above ctx := by
  cases ctx <;> rfl

private theorem At.mirror (h : At m root ctx t) :
    At m.mirror root (ctx.map Frame.mirror) t.mirror := by
  rw [at_plug] at h ⊢
  rw [plug_mirror]
  refine ⟨trivial, h.link.trans root_mirror.symm, rep_mirror.mpr h.rep, ?_⟩
  rw [plug, toList_mirror, List.nodup_reverse]
  exact h.nodup

private theorem Moved.mirror (h : Moved m m' root [] t) :
    Moved m.mirror m'.mirror root [] t.mirror := by
  refine ⟨h.toAt.mirror, fun y hy => sameAt_mirror.mpr (h.outside y fun hyt => hy ?_), h.roots⟩
  rw [plug, toList_mirror, List.mem_reverse]
  exact hyt

variable [DecidableEq α] [DecidableEq ρ]

omit [DecidableEq α] [DecidableEq ρ] in
private theorem InsertHead.mirror (h : InsertHead m root ctx t) :
    InsertHead m.mirror root (ctx.map Frame.mirror) t.mirror := by
  obtain ⟨p, n, ha, ht⟩ := h.balanced
  exact ⟨h.toAt.mirror, p, n, ha.mirror, ht.mirror⟩

omit [DecidableEq α] [DecidableEq ρ] in
private theorem EraseHead.mirror (h : EraseHead m root ctx t) :
    EraseHead m.mirror root (ctx.map Frame.mirror) t.mirror := by
  obtain ⟨p, n, ha, ht⟩ := h.balanced
  exact ⟨h.toAt.mirror, ⟨p, n, ha.mirror, ht.mirror⟩, fun hctx => h.below (List.map_eq_nil_iff.mp hctx)⟩

/-- Both calls of the insertion's second half end with mirror images. -/
private theorem insert_mirror {x : α} {l r : ColorTree α} {fuel : Nat}
    (h : InsertHead m root ctx (.node .red l x r)) (hfuel : ctx.length < fuel) :
    ∃ m', (rbInsertColor fuel (some x) root).run m = .ok ((), m') ∧
      (rbInsertColor fuel (some x) root).run m.mirror = .ok ((), m'.mirror) := by
  obtain ⟨m', hrun, hmoved⟩ := run_rbInsertColor h hfuel
  have hfuel' : (ctx.map Frame.mirror).length < fuel := by rwa [List.length_map]
  obtain ⟨m₂, hrun₂, hmoved₂⟩ := run_rbInsertColor h.mirror hfuel'
  have himage := hmoved.mirror
  rw [← insertFix_mirror] at himage
  obtain rfl := hmoved₂.unique himage
  exact ⟨m', hrun, hrun₂⟩

/-- A tree of the given nodes, in which the paths through an empty link below `parent` lack one black
node. -/
def Deficient (m : Memory α W ρ) (root : ρ) (nodes : List α) (parent : α) : Prop :=
  ∃ ctx p, At m root ctx .nil ∧ Around ctx p 1 ∧ above ctx = some parent ∧
    (around ctx).Perm nodes

private theorem erase_mirror {nodes : List α} {parent : α} {fuel : Nat}
    (h : Deficient m root nodes parent) (hfuel : nodes.length ≤ fuel) :
    ∃ m', (rbEraseColor fuel (some parent) root).run m = .ok ((), m') ∧
      (rbEraseColor fuel (some parent) root).run m.mirror = .ok ((), m'.mirror) := by
  obtain ⟨ctx, p, hat, ha, habove, hperm⟩ := h
  have hne : ctx ≠ [] := by
    rintro rfl
    cases habove
  have hlen := (length_le_around ctx).trans (hperm.length_eq.trans_le hfuel)
  have hhead : EraseHead m root ctx .nil := ⟨hat, ⟨p, 0, ha, .nil⟩, hne⟩
  obtain ⟨m', hrun, hmoved⟩ := run_rbEraseColorLoop hhead hlen
  have hlen' : (ctx.map Frame.mirror).length ≤ fuel := by rwa [List.length_map]
  obtain ⟨m₂, hrun₂, hmoved₂⟩ := run_rbEraseColorLoop hhead.mirror hlen'
  have himage := hmoved.mirror
  rw [← eraseFix_mirror] at himage
  obtain rfl := hmoved₂.unique himage
  rw [habove] at hrun
  rw [above_mirror, habove] at hrun₂
  exact ⟨m', hrun, hrun₂⟩

end Trees

section Agreement
variable [Word α W] [DecidableEq α] [DecidableEq ρ] {m : Memory α W ρ} {root : ρ} {live : List α}
  {t : ColorTree α} {fuel : Nat}

/-- What the first half of an erasure hands over to the second one. -/
private theorem erase_deficient {x parent : α} {m₁ : Memory α W ρ} (h : RedBlackTree m root live t)
    (hx : x ∈ live) (hfuel : live.length ≤ fuel)
    (hrun : (rbEraseAugmented fuel (some x) root).run m = .ok (some parent, m₁)) :
    Deficient m₁ root (live.erase x) parent := by
  obtain ⟨rebalance, m₂, hrun₂, hcases⟩ := erase_begins h hx hfuel
  have hend := Prod.mk.inj (Except.ok.inj (hrun.symm.trans hrun₂))
  obtain rfl := hend.2
  rcases hcases with ⟨hnone, -⟩ | ⟨ctx, hsome, hhead, hlist⟩
  · cases hend.1.trans hnone
  · obtain ⟨hat, ⟨p, n, ha, hnil⟩, -⟩ := hhead
    cases hnil
    have hperm : (plug ctx .nil).toList.Perm (around ctx) := perm_plug
    rw [hlist] at hperm
    exact ⟨ctx, p, hat, ha, (hend.1.trans hsome).symm, hperm.symm.trans (h.perm.erase x)⟩

omit [DecidableEq α] [DecidableEq ρ] in
private theorem first_mirror (h : RedBlackTree m root live t) (hfuel : live.length ≤ fuel) :
    ∃ n, (rbLast fuel root).run m = .ok (n, m) ∧
      (rbFirst fuel root).run m.mirror = .ok (n, m.mirror) := by
  have hlast : (rbLast fuel root).run m = .ok ((t.listFrom .right).head?, m) := by
    rw [rbLast_eq]
    exact run_startSide h.toAt (h.perm.length_eq.trans_le hfuel)
  exact ⟨_, hlast, (mirrored_rbFirst fuel root).run_ok hlast⟩

omit [DecidableEq ρ] in
private theorem next_mirror [DecidableEq W] {x : α} (h : RedBlackTree m root live t) (hx : x ∈ live)
    (hfuel : live.length < fuel) :
    ∃ n, (rbPrev fuel (some x)).run m = .ok (n, m) ∧
      (rbNext fuel (some x)).run m.mirror = .ok (n, m.mirror) := by
  have hmem : x ∈ t.listFrom .right := (perm_listFrom t .right).mem_iff.mpr (h.perm.mem_iff.mpr hx)
  obtain ⟨b, a, hlist⟩ := List.append_of_mem hmem
  have hprev : (rbPrev fuel (some x)).run m = .ok (a.head?, m) := by
    rw [rbPrev_eq]
    exact run_stepSide h.toAt hlist (h.perm.length_eq.trans_lt hfuel)
  exact ⟨_, hprev, (mirrored_rbNext fuel (some x)).run_ok hprev⟩

/-- The branches written twice agree: the calls on the mirrored memory end with the mirror image of
what they make of the memory itself, and the walk goes the other way. -/
theorem mirror_branches_agree [DecidableEq W] (h : RedBlackTree m root live t)
    (hfuel : live.length < fuel) :
    (∀ x parent rbLink, Legal root ⟨m, live⟩ (.insert x parent rbLink) →
      ∃ m₁ m', (rbLinkNode (some x) parent rbLink).run m = .ok ((), m₁) ∧
        (rbInsertColor fuel (some x) root).run m₁ = .ok ((), m') ∧
        (rbInsertColor fuel (some x) root).run m₁.mirror = .ok ((), m'.mirror)) ∧
    (∀ x ∈ live, ∀ parent m₁, (rbEraseAugmented fuel (some x) root).run m = .ok (some parent, m₁) →
      Deficient m₁ root (live.erase x) parent) ∧
    (∀ (m₁ : Memory α W ρ) nodes parent fuel₁, Deficient m₁ root nodes parent →
      nodes.length ≤ fuel₁ →
      ∃ m', (rbEraseColor fuel₁ (some parent) root).run m₁ = .ok ((), m') ∧
        (rbEraseColor fuel₁ (some parent) root).run m₁.mirror = .ok ((), m'.mirror)) ∧
    (∃ n, (rbLast fuel root).run m = .ok (n, m) ∧
      (rbFirst fuel root).run m.mirror = .ok (n, m.mirror)) ∧
    ∀ x ∈ live, ∃ n, (rbPrev fuel (some x)).run m = .ok (n, m) ∧
      (rbNext fuel (some x)).run m.mirror = .ok (n, m.mirror) := by
  refine ⟨fun x parent rbLink hlegal => ?_, fun x hx parent m₁ => erase_deficient h hx hfuel.le,
    fun m₁ nodes parent fuel₁ hdef hnodes => erase_mirror hdef hnodes, first_mirror h hfuel.le,
    fun x hx => next_mirror h hx hfuel⟩
  obtain ⟨hx, hplace, hnull⟩ := hlegal
  obtain ⟨ctx, rfl, rfl, rfl⟩ := onTree_place h.toAt h.perm hplace hnull
  obtain ⟨N, hb⟩ := h.balanced
  obtain ⟨p, c, n, ha, hnil, -⟩ := hb.around
  cases hnil
  obtain ⟨m₁, hlink, hmoved⟩ := run_rbLinkNode (at_plug.mpr h.toAt) (h.notMem_around hx)
  have hlen := (length_le_toList_plug ctx .nil).trans h.perm.length_eq.le
  obtain ⟨m', hrun, himage⟩ := insert_mirror ⟨hmoved.toAt, p, _, ha, .red .nil .nil⟩
    (hlen.trans_lt hfuel)
  exact ⟨m₁, m', hlink, hrun, himage⟩

/-- A fourth node linked below a red one, on the one side and, in the mirror, on the other. -/
theorem fourth_node_mirrored :
    ∃ m₁ m' : Memory Address (BitVec 64) Unit,
      (rbInsertColor 4 (some ⟨24#64, by decide⟩) ()).run m₁ = .ok ((), m') ∧
      (rbInsertColor 4 (some ⟨24#64, by decide⟩) ()).run m₁.mirror = .ok ((), m'.mirror) := by
  obtain ⟨t, ht⟩ := reachable_redBlackTree rfl reachable_threeNodes
  have hfuel : 3 < 4 := by decide
  have hinsert := (mirror_branches_agree ht hfuel).1 ⟨24#64, by decide⟩
    (some ⟨8#64, by decide⟩) (.rbRight ⟨8#64, by decide⟩)
  obtain ⟨m₁, m', -, hrun, himage⟩ := hinsert (by decide)
  exact ⟨m₁, m', hrun, himage⟩

end Agreement
end CommonProject.RBTree

import CommonProject.RBTree.Runs

/-! What an insertion or an erasure leaves alone: other nodes, other roots, and the erased node. -/
namespace CommonProject.RBTree
open Foundations Foundations.RedBlack Foundations.RedBlack.ColorTree
variable {α W ρ : Type}

def Memory.spoil [DecidableEq α] (m : Memory α W ρ) (x : α) (v : W × Option α × Option α) : Memory α W ρ :=
  ((m.setParentColor x v.1).setRight x v.2.1).setLeft x v.2.2

section Spoil
variable [DecidableEq α] {m m' : Memory α W ρ} {x y : α} {v : W × Option α × Option α}

theorem sameAt_spoil_right (h : y ≠ x) : SameAt m (m'.spoil x v) y ↔ SameAt m m' y :=
  (sameAt_setChild_right (d := .left) h).trans
    ((sameAt_setChild_right (d := .right) h).trans (sameAt_setParentColor_right h))

private theorem sameAt_spoil_self : SameAt (m.spoil x v) (m'.spoil x v) x := by
  simp [SameAt, Memory.spoil, Memory.setParentColor, Memory.setRight, Memory.setLeft]

@[simp] theorem rbNode_spoil : (m.spoil x v).rbNode = m.rbNode := rfl

end Spoil

section Unique
variable {m m₁ m₂ : Memory α W ρ} {root : ρ} {p : Option α} {t : ColorTree α} {x : α}

private theorem SameAt.symm (h : SameAt m₁ m₂ x) : SameAt m₂ m₁ x :=
  ⟨h.1.symm, h.2.1.symm, h.2.2.symm⟩

private theorem memory_ext (h : ∀ x, SameAt m₁ m₂ x) (hr : ∀ r, m₂.rbNode r = m₁.rbNode r) :
    m₁ = m₂ := by
  obtain ⟨w, rt, lt, n⟩ := m₁
  obtain ⟨w', rt', lt', n'⟩ := m₂
  obtain rfl : w' = w := funext fun x => (h x).1
  obtain rfl : lt' = lt := funext fun x => (h x).2.1
  obtain rfl : rt' = rt := funext fun x => (h x).2.2
  obtain rfl : n' = n := funext hr
  rfl

variable [Word α W]

/-- A tree and the root of its parent links fix every field of its nodes. -/
private theorem rep_sameAt (h : Rep m₁ p t) (h' : Rep m₂ p t) (hx : x ∈ t.toList) :
    SameAt m₁ m₂ x := by
  induction t generalizing p with
  | nil => cases hx
  | node c l y r ihl ihr =>
    obtain ⟨hw, hl, hr, hll, hlr⟩ := h
    obtain ⟨hw', hl', hr', hll', hlr'⟩ := h'
    simp only [toList, List.mem_append, List.mem_cons] at hx
    rcases hx with hx | rfl | hx
    · exact ihl hll hll' hx
    · exact ⟨hw'.trans hw.symm, hl'.trans hl.symm, hr'.trans hr.symm⟩
    · exact ihr hlr hlr' hx

/-- The tree that a call leaves says all about the memory that it leaves. -/
theorem Moved.unique (h : Moved m m₁ root [] t) (h' : Moved m m₂ root [] t) : m₁ = m₂ := by
  refine memory_ext (fun x => ?_) fun r => ?_
  · by_cases hx : x ∈ t.toList
    · exact rep_sameAt h.rep h'.rep hx
    · exact (sameAt_congr_right (h'.outside x hx)).mpr (h.outside x hx).symm
  · by_cases hr : r = root
    · subst hr
      exact h'.link.trans h.link.symm
    · exact (h'.roots r hr).trans (h.roots r hr).symm

end Unique

variable [DecidableEq α] [DecidableEq ρ] [Word α W]

section Outside
variable {m m' : Memory α W ρ} {root : ρ} {t : ColorTree α} {ctx : List (Frame α)} {x : α}
  {fuel : Nat}

omit [DecidableEq ρ] in
/-- A node outside the tree may hold anything. -/
private theorem At.spoil (h : At m root ctx t) (hx : x ∉ (plug ctx t).toList)
    (v : W × Option α × Option α) : At (m.spoil x v) root ctx t := by
  obtain ⟨-, hlink, hrep, hnd⟩ := at_plug.mp h
  refine at_plug.mpr ⟨trivial, hlink, (rep_congr fun y hy => ?_).mpr hrep, hnd⟩
  have hne : y ≠ x := by
    rintro rfl
    exact hx hy
  exact (sameAt_spoil_right hne).mpr (.refl ..)

omit [DecidableEq ρ] in
private theorem Moved.spoil (h : Moved m m' root [] t) (hx : x ∉ t.toList)
    (v : W × Option α × Option α) : Moved (m.spoil x v) (m'.spoil x v) root [] t := by
  refine ⟨h.toAt.spoil hx v, fun y hy => ?_, h.roots⟩
  by_cases hne : y = x
  · subst hne
    exact sameAt_spoil_self
  · have hback : SameAt (m.spoil x v) m y := ((sameAt_spoil_right hne).mpr (.refl ..)).symm
    exact (sameAt_spoil_right hne).mpr ((sameAt_congr_right (h.outside y hy)).mpr hback)

end Outside

structure ChangesOnly (root : ρ) (nodes : List α) (m m' : Memory α W ρ) : Prop where
  outside : ∀ y, y ∉ nodes → SameAt m m' y
  roots : ∀ r, r ≠ root → m'.rbNode r = m.rbNode r

section Calls
variable {m m' : Memory α W ρ} {root r : ρ} {t : ColorTree α} {live : List α} {x : α} {fuel : Nat}

omit [DecidableEq α] [DecidableEq ρ] in
private theorem Moved.changesOnly (h : Moved m m' root [] t) (hperm : t.toList.Perm live) :
    ChangesOnly root live m m' :=
  ⟨fun y hy => h.outside y fun hyt => hy (hperm.mem_iff.mp hyt), h.roots⟩

omit [DecidableEq α] [DecidableEq ρ] in
/-- A tree depends on its own nodes and root only. -/
theorem RedBlackTree.congr (h : RedBlackTree m root live t) (hsame : ∀ y ∈ live, SameAt m m' y)
    (hroot : m'.rbNode root = m.rbNode root) : RedBlackTree m' root live t :=
  ⟨hroot.trans h.rbNode, (rep_congr fun y hy => hsame y (h.perm.mem_iff.mp hy)).mpr h.rep, h.nodup,
    h.perm, h.balanced⟩

omit [DecidableEq α] [DecidableEq ρ] in
/-- Nothing in the tree refers to a node that is not in it. -/
private theorem RedBlackTree.no_link (h : RedBlackTree m root live t) (hx : x ∉ live) :
    m.rbNode root ≠ some x ∧ ∀ y ∈ live, (∀ d, m.child d y ≠ some x) ∧
      Word.parent (m.rbParentColor y) ≠ some x := by
  refine ⟨fun hroot => hx (h.perm.mem_iff.mp (root_mem (h.rbNode.symm.trans hroot))), ?_⟩
  intro y hy
  refine ⟨fun d hd => hx (h.parent_of_child hy hd).1, fun hparent => hx ?_⟩
  obtain ⟨ctx, c, l, r, rfl⟩ := exists_plug (h.perm.mem_iff.mpr hy)
  rw [(at_plug.mpr h.toAt).rep.1, Word.parent_pack] at hparent
  refine h.perm.mem_iff.mp (mem_plug.mpr (.inr ?_))
  cases ctx with
  | nil => cases hparent
  | cons f ctx => simp [around, Option.some.inj hparent]

/-- An insertion changes the new node and the nodes of the tree at most. -/
theorem insert_changesOnly {parent : Option α} {rbLink : Slot α ρ} (h : RedBlackTree m root live t)
    (hx : x ∉ live) (hplace : OnTree root live parent rbLink) (hnull : m.read rbLink = none)
    (hfuel : live.length < fuel) :
    ∃ m' t', (rbInsert fuel (some x) parent rbLink root).run m = .ok ((), m') ∧
      RedBlackTree m' root (live ++ [x]) t' ∧ ChangesOnly root (live ++ [x]) m m' := by
  obtain ⟨ctx, rfl, rfl, rfl⟩ := onTree_place h.toAt h.perm hplace hnull
  obtain ⟨m', hrun, hmoved⟩ := insert_moved h hx hfuel
  obtain ⟨m'', hrun', htree⟩ := insert_redBlackTree h hx hfuel
  obtain rfl : m' = m'' := congrArg Prod.snd (Except.ok.inj (hrun.symm.trans hrun'))
  exact ⟨m', _, hrun, htree, hmoved.changesOnly htree.perm⟩

/-- An erasure changes the other nodes of the tree at most. Neither half of it writes to the erased
node, and the second half takes no notice of what is in there. -/
theorem erase_changesOnly (h : RedBlackTree m root live t) (hx : x ∈ live)
    (hfuel : live.length < fuel) :
    ∃ rebalance m₁ m' t', (rbEraseAugmented fuel (some x) root).run m = .ok (rebalance, m₁) ∧
      (rbErase fuel (some x) root).run m = .ok ((), m') ∧
      RedBlackTree m' root (live.erase x) t' ∧ ChangesOnly root (live.erase x) m m' ∧
      SameAt m m₁ x ∧
      ∀ v, (rebalanceAt fuel rebalance root).run (m₁.spoil x v) = .ok ((), m'.spoil x v) := by
  obtain ⟨ctx, c, l, r, rfl⟩ := exists_plug (h.perm.mem_iff.mpr hx)
  obtain ⟨N, hb⟩ := h.balanced
  obtain ⟨hperm, hlen⟩ := h.erase_perm
  have hfuel' := hlen.trans hfuel.le
  obtain ⟨m₁, hrun, hmoved⟩ := run_rbEraseAugmented (at_plug.mpr h.toAt) hfuel'
  obtain ⟨m', hrest, hmoved'⟩ := run_rebalanceAt hmoved.toAt (splice_deficit hb) hfuel'
  have hend : (rbErase fuel (some x) root).run m = .ok ((), m') := by
    rw [rbErase_eq, StateT.run_bind, hrun, pure_bind, hrest]
    rfl
  obtain ⟨m'', hrun', hmoved''⟩ := erase_moved h hfuel.le
  obtain rfl : m' = m'' := congrArg Prod.snd (Except.ok.inj (hend.symm.trans hrun'))
  have hgone : x ∉ (plug (splice ctx c l r).1 (splice ctx c l r).2.1).toList := by
    rw [toList_splice, ← toList_eraseNode, hperm.mem_iff]
    exact fun hxe => ((h.perm.nodup_iff.mp h.nodup).mem_erase_iff.mp hxe).1 rfl
  refine ⟨_, m₁, m', _, hrun, hend, hmoved''.toAt.redBlackTree hperm (eraseNode_balanced hb),
    hmoved''.changesOnly hperm, hmoved.outside x hgone, fun v => ?_⟩
  obtain ⟨m₂, hrest₂, hmoved₂⟩ := run_rebalanceAt (hmoved.toAt.spoil hgone v) (splice_deficit hb) hfuel'
  have hgone' : x ∉ (eraseNode ctx c l r).toList := by
    rwa [toList_eraseNode, ← toList_splice]
  obtain rfl := hmoved₂.unique (hmoved'.spoil hgone' v)
  exact hrest₂

/-- A step changes the nodes at most that are live after it. -/
theorem step_changesOnly {s s' : State α W ρ} {call : Op α ρ × Nat}
    (h : RedBlackTree s.memory root s.live t) (hstep : step root s call = some s') :
    ChangesOnly root s'.live s.memory s'.memory := by
  obtain ⟨hlegal, m', hrun, rfl⟩ := step_eq_some.mp hstep
  have hfuel : s.live.length < s.live.length + call.2 + 1 := by omega
  have hmore := (settled_program call.1 root).stable
    (by omega : call.2 ≤ s.live.length + call.2 + 1) hrun
  obtain ⟨op, k⟩ := call
  cases op with
  | insert x parent rbLink =>
    obtain ⟨m'', t', hrun', -, hchanges⟩ :=
      insert_changesOnly h hlegal.1 hlegal.2.1 hlegal.2.2 hfuel
    obtain rfl : m'' = m' := congrArg Prod.snd (Except.ok.inj (hrun'.symm.trans hmore))
    exact hchanges
  | erase x =>
    obtain ⟨-, -, m'', t', -, hrun', -, hchanges, -⟩ := erase_changesOnly h hlegal hfuel
    obtain rfl : m'' = m' := congrArg Prod.snd (Except.ok.inj (hrun'.symm.trans hmore))
    exact hchanges

end Calls

/-- Both calls change only nodes of the tree and its root. The erased node is free at once: nothing
was written to it and no link leads to it, so it may be linked elsewhere. -/
theorem operations_touch_own_tree {m : Memory α W ρ} {root : ρ} {live : List α} {t : ColorTree α}
    {fuel : Nat} (h : RedBlackTree m root live t) (hfuel : live.length < fuel) :
    (∀ x parent rbLink, Legal root ⟨m, live⟩ (.insert x parent rbLink) →
      ∃ m' t', (rbInsert fuel (some x) parent rbLink root).run m = .ok ((), m') ∧
        RedBlackTree m' root (live ++ [x]) t' ∧ ChangesOnly root (live ++ [x]) m m') ∧
    ∀ x ∈ live, ∃ rebalance m₁ m' t',
      (rbEraseAugmented fuel (some x) root).run m = .ok (rebalance, m₁) ∧
      (rbErase fuel (some x) root).run m = .ok ((), m') ∧
      RedBlackTree m' root (live.erase x) t' ∧ ChangesOnly root (live.erase x) m m' ∧
      (SameAt m m₁ x ∧
        ∀ v, (rebalanceAt fuel rebalance root).run (m₁.spoil x v) = .ok ((), m'.spoil x v)) ∧
      (m'.rbNode root ≠ some x ∧ ∀ y ∈ live.erase x, (∀ d, m'.child d y ≠ some x) ∧
        Word.parent (m'.rbParentColor y) ≠ some x) ∧
      (∀ v, RedBlackTree (m'.spoil x v) root (live.erase x) t') ∧
      ∀ r ≠ root, ∀ live₂ t₂, live.Disjoint live₂ → RedBlackTree m r live₂ t₂ →
        RedBlackTree m' r live₂ t₂ ∧
        ∀ parent rbLink fuel₂, Legal r ⟨m', live₂⟩ (.insert x parent rbLink) → live₂.length < fuel₂ →
          ∃ m'' t₂', (rbInsert fuel₂ (some x) parent rbLink r).run m' = .ok ((), m'') ∧
            RedBlackTree m'' root (live.erase x) t' ∧ RedBlackTree m'' r (live₂ ++ [x]) t₂' := by
  refine ⟨fun x parent rbLink hlegal => insert_changesOnly h hlegal.1 hlegal.2.1 hlegal.2.2 hfuel,
    fun x hx => ?_⟩
  obtain ⟨rebalance, m₁, m', t', hrun, hend, htree, hchanges, hkept⟩ := erase_changesOnly h hx hfuel
  have hgone : x ∉ live.erase x := fun hxe =>
    ((h.perm.nodup_iff.mp h.nodup).mem_erase_iff.mp hxe).1 rfl
  refine ⟨rebalance, m₁, m', t', hrun, hend, htree, hchanges, hkept, htree.no_link hgone, ?_, ?_⟩
  · intro v
    refine htree.congr (fun y hy => (sameAt_spoil_right ?_).mpr (.refl ..)) rfl
    rintro rfl
    exact hgone hy
  · intro r hr live₂ t₂ hdisj htree₂
    have hother : RedBlackTree m' r live₂ t₂ := htree₂.congr
      (fun y hy => hchanges.outside y fun hye => hdisj (List.mem_of_mem_erase hye) hy)
      (hchanges.roots r hr)
    refine ⟨hother, fun parent rbLink fuel₂ hlegal hfuel₂ => ?_⟩
    obtain ⟨m'', t₂', hrun₂, htree₂', hchanges₂⟩ :=
      insert_changesOnly hother hlegal.1 hlegal.2.1 hlegal.2.2 hfuel₂
    refine ⟨m'', t₂', hrun₂, htree.congr (fun y hy => hchanges₂.outside y ?_) ?_, htree₂'⟩
    · rw [List.mem_append, List.mem_singleton, not_or]
      refine ⟨fun hy₂ => hdisj (List.mem_of_mem_erase hy) hy₂, ?_⟩
      rintro rfl
      exact hgone hy
    · exact hchanges₂.roots root hr.symm

/-- The root of three nodes is erased, and is in no link afterwards. -/
theorem erased_root_is_free :
    ∃ (s : State Address (BitVec 64) Unit) (m' : Memory Address (BitVec 64) Unit),
      (rbErase 4 (some ⟨48#64, by decide⟩) ()).run s.memory = .ok ((), m') ∧
      s.memory.rbNode () = some ⟨48#64, by decide⟩ ∧ m'.rbNode () ≠ some ⟨48#64, by decide⟩ ∧
      SameAt s.memory m' ⟨48#64, by decide⟩ := by
  obtain ⟨t, ht⟩ := reachable_redBlackTree rfl reachable_threeNodes
  have hfuel : 3 < 4 := by decide
  obtain ⟨-, -, m', -, -, hrun, -, hchanges, -, hfree, -⟩ :=
    (operations_touch_own_tree ht hfuel).2 ⟨48#64, by decide⟩ (by decide)
  exact ⟨_, m', hrun, rfl, hfree.1, hchanges.outside _ (by decide)⟩

end CommonProject.RBTree

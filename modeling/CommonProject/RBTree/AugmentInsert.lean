import CommonProject.RBTree.Augment

/-! Callbacks that maintain a product over each subtree, and `__rb_insert` with them. -/
namespace CommonProject.RBTree
open Foundations.RedBlack Foundations.RedBlack.ColorTree
variable {α W ρ V : Type} [Monoid V]

section Data
variable (val : α → V) (m : Memory α W ρ) (aug : α → V)

def computed (x : α) : V :=
  combine .left (augOf aug (m.rbLeft x)) (val x) (augOf aug (m.rbRight x))

/-- After a rotation, `new` holds what `old` held, which is computed anew. -/
def rotated [DecidableEq α] (old new : α) : α → V :=
  let aug := Function.update aug new (aug old)
  Function.update aug old (computed val m aug old)

variable {val m aug}

theorem computed_eq (d : Dir) (x : α) : computed val m aug x =
    combine d (augOf aug (m.child d x)) (val x) (augOf aug (m.child d.flip x)) := by
  cases d <;> rfl

end Data

section Context
variable {val aug aug' : α → V} {v : V} {ctx : List (Frame α)} {x : α}

theorem summedAround_congr (h : ∀ x ∈ around ctx, aug' x = aug x) :
    SummedAround val aug' v ctx ↔ SummedAround val aug v ctx := by
  induction ctx generalizing v with
  | nil => exact Iff.rfl
  | cons f ctx ih =>
    simp only [around, List.cons_append, List.mem_cons, List.mem_append] at h
    rw [SummedAround, SummedAround, h _ (.inl rfl), summed_congr fun x hx => h x (.inr (.inl hx)),
      ih fun x hx => h x (.inr (.inr hx))]

theorem stale_congr (h : ∀ x ∈ around ctx, aug' x = aug x) : Stale val aug' ctx ↔ Stale val aug ctx := by
  cases ctx with
  | nil => exact Iff.rfl
  | cons f ctx =>
    simp only [around, List.cons_append, List.mem_cons, List.mem_append] at h
    rw [Stale, Stale, h _ (.inl rfl), summed_congr fun x hx => h x (.inr (.inl hx)),
      summedAround_congr fun x hx => h x (.inr (.inr hx))]

variable [DecidableEq α]

@[simp] theorem summedAround_update {w : V} (h : x ∉ around ctx) :
    SummedAround val (Function.update aug x w) v ctx ↔ SummedAround val aug v ctx :=
  summedAround_congr fun _ hy => Function.update_of_ne (ne_of_mem_of_not_mem hy h) ..

/-- A rotation at `z` with the callback called when the children of `z` are linked. -/
private theorem summed_rotated {m : Memory α W ρ} {d : Dir} {y z : α} {t s u : ColorTree α}
    {c cy : Color} (h : Summed val aug (plug ctx (branch d c z (branch d cy y t s) u)))
    (hnd : (plug ctx (branch d c z (branch d cy y t s) u)).toList.Nodup)
    (hnear : m.child d z = s.root) (hfar : m.child d.flip z = u.root) :
    Summed val (rotated val m aug z y) (plug ctx (branch d c y t (branch d cy z s u))) := by
  simp only [nodup_plug, nodup_branch, disjoint_branch, mem_branch, not_or] at hnd
  simp only [summed_plug, summed_branch, product_branch] at h ⊢
  obtain ⟨⟨hz, ⟨hy, ht, hs⟩, hu⟩, hctx⟩ := h
  have hcomputed : computed val m (Function.update aug y (aug z)) z =
      combine d (product val s) (val z) (product val u) := by
    rw [computed_eq d, hnear, hfar, augOf_update (by simp [hnd]), augOf_update (by simp [hnd]),
      hs.augOf_root, hu.augOf_root]
  simp only [rotated, hcomputed]
  have hyz : y ≠ z := by tauto
  refine ⟨⟨?_, ?_, ?_, ?_, ?_⟩, ?_⟩
  · rw [Function.update_of_ne hyz, Function.update_self, hz, combine_assoc]
  · simpa [hnd] using ht
  · exact Function.update_self ..
  · simpa [hnd] using hs
  · simpa [hnd] using hu
  · rw [← combine_assoc]
    simpa [hnd] using hctx

theorem summed_rotated_flip {m : Memory α W ρ} {d : Dir} {x s : α} {t near far : ColorTree α}
    {c cs : Color} (h : Summed val aug (plug ctx (branch d c x t (branch d cs s near far))))
    (hnd : (plug ctx (branch d c x t (branch d cs s near far))).toList.Nodup)
    (hnear : m.child d x = t.root) (hfar : m.child d.flip x = near.root) :
    Summed val (rotated val m aug x s) (plug ctx (branch d c s (branch d cs x t near) far)) := by
  have horder : branch d c x t (branch d cs s near far) =
      branch d.flip c x (branch d.flip cs s far near) t := by simp only [branch_flip]
  rw [horder] at h hnd
  have hrotated := summed_rotated h hnd hfar (by rwa [Dir.flip_flip])
  rwa [branch_flip, branch_flip] at hrotated

/-- Two rotations lift `x` above its parent `y` and its grandparent `z`. -/
private theorem summed_rotated₂ {m m' : Memory α W ρ} {d : Dir} {x y z : α} {s a b u : ColorTree α}
    {c cy cx : Color}
    (h : Summed val aug (plug ctx (branch d c z (branch d cy y s (branch d cx x a b)) u)))
    (hnd : (plug ctx (branch d c z (branch d cy y s (branch d cx x a b)) u)).toList.Nodup)
    (hs : m.child d y = s.root) (ha : m.child d.flip y = a.root)
    (hb : m'.child d z = b.root) (hu : m'.child d.flip z = u.root) :
    Summed val (rotated val m' (rotated val m aug y x) z x)
      (plug ctx (branch d c x (branch d cx y s a) (branch d cy z b u))) := by
  have hmid : Summed val (rotated val m aug y x)
      (plug (⟨d, c, z, u⟩ :: ctx) (branch d cy x (branch d cx y s a) b)) :=
    summed_rotated_flip h hnd hs ha
  have horder : (branch d c z (branch d cy x (branch d cx y s a) b) u).toList =
      (branch d c z (branch d cy y s (branch d cx x a b)) u).toList := by
    cases d <;> simp [branch, toList]
  rw [← toList_plug_congr horder] at hnd
  exact summed_rotated hmid hnd hb hu

theorem summed_rotated₂_flip {m m' : Memory α W ρ} {d : Dir} {x y s : α} {t a b far : ColorTree α}
    {c cs cy : Color}
    (h : Summed val aug (plug ctx (branch d c x t (branch d cs s (branch d cy y a b) far))))
    (hnd : (plug ctx (branch d c x t (branch d cs s (branch d cy y a b) far))).toList.Nodup)
    (hb : m.child d s = b.root) (hfar : m.child d.flip s = far.root)
    (ht : m'.child d x = t.root) (ha : m'.child d.flip x = a.root) :
    Summed val (rotated val m' (rotated val m aug s y) x y)
      (plug ctx (branch d c y (branch d cs x t a) (branch d cy s b far))) := by
  have horder : branch d c x t (branch d cs s (branch d cy y a b) far) =
      branch d.flip c x (branch d.flip cs s far (branch d.flip cy y b a)) t := by
    simp only [branch_flip]
  rw [horder] at h hnd
  have hrotated := summed_rotated₂ h hnd hfar (by rwa [Dir.flip_flip]) ha (by rwa [Dir.flip_flip])
  simpa only [branch_flip] using hrotated

end Context

section Contract

/-- The node above a place, on the way up to `stop`. -/
def upTo (stop : Option α) : List (Frame α) → Option α
  | [] => stop
  | f :: _ => some f.value

def Climb [Word α W] (m : Memory α W ρ) (stop : Option α) : Option α → List (Frame α) → Prop
  | _, [] => True
  | p, f :: up => m.child f.dir f.value = p ∧ m.child f.dir.flip f.value = f.sibling.root ∧
      Word.parent (m.rbParentColor f.value) = upTo stop up ∧ Climb m stop (some f.value) up

/-- What the callbacks of a tree that maintains products do. On the way up, `propagate` may stop early
where nothing changes. -/
structure Maintains [Word α W] [DecidableEq α] (val : α → V)
    (augment : AugmentCallbacks α W ρ (α → V)) (bound : Nat) : Prop extends augment.Silent where
  rotate_eq (old new : α) (aug : α → V) (m : Memory α W ρ) :
    exec (augment.rotate (some old) (some new)) aug m = pure (((), rotated val m aug old new), m)
  copy_eq (old new : α) (aug : α → V) (m : Memory α W ρ) :
    exec (augment.copy (some old) (some new)) aug m =
      pure (((), Function.update aug new (aug old)), m)
  propagate_eq {m : Memory α W ρ} {stop p : Option α} {up : List (Frame α)} {aug : α → V} :
    up.length ≤ bound → Climb m stop p up → (around up).Nodup →
    (∀ x ∈ around up, p ≠ some x ∧ stop ≠ some x) → Stale val aug up →
    ∃ aug', exec (augment.propagate (upTo stop up) stop) aug m = pure (((), aug'), m) ∧
      (∀ x, x ∉ around up → aug' x = aug x) ∧ SummedAround val aug' (augOf aug p) up

end Contract

section Turn
variable [Word α W] [DecidableEq α] [DecidableEq ρ] {val aug : α → V}
  {augment : AugmentCallbacks α W ρ (α → V)} {bound : Nat} {m : Memory α W ρ} {root : ρ}
  {d dp dg : Dir} {x y z : α} {a b s t u : ColorTree α} {ctx : List (Frame α)} {c cp cg cx : Color}
  {f g : Frame α}

private theorem exec_insertSide_rotate (hcb : Maintains val augment bound)
    (h : At m root ctx (branch d cg z (branch d cp y t s) u)) (hu : u.color = .black)
    (hx : t.root = some x)
    (hsum : Summed val aug (plug ctx (branch d cg z (branch d cp y t s) u))) :
    ∃ aug' m', exec (insertSideWith augment.rotate d (some x) (some y) (some z) u.root root) aug m =
        pure ((none, aug'), m') ∧
      Summed val aug' (plug ctx (branch d cg y t (branch d .red z (s.paint .black) u))) := by
  have hnd := h.nodup
  have hrep := h.rep
  have hctx := h.repCtx
  have hlink := h.link
  simp only [nodup_plug, nodup_branch, disjoint_branch, mem_branch, not_or] at hnd
  simp only [rep_branch, root_branch] at hrep hlink
  have hne : some x ≠ s.root := root_ne fun hs => hnd.1.2.2.1.2.2.2.2 (root_mem hx) hs
  refine ⟨?aug', ?m', ?run, ?sum⟩
  case run =>
    simp only [insertSideWith, exec_bind, exec_plain, run_isRedNode hrep.2.2.2.2, pure_bind, hu,
      beq_iff_eq, reduceCtorEq, if_false, run_loadChild, hrep.2.2.2.1.2.2.1, hne, exec_pure,
      StateT.run_bind, run_storeChild, run_adoptNode]
    rw [run_rbRotateSetParents ctx (c := cg)]
    · simp only [pure_bind, hcb.rotate_eq]
      rfl
    all_goals simp [*]
  case sum =>
    simpa only [summed_plug, summed_branch, product_branch, product_paint, summed_paint] using
      summed_rotated hsum h.nodup (by simp [*]) (by simp [*])

private theorem exec_insertSide_rotate₂ (hcb : Maintains val augment bound)
    (h : At m root ctx (branch d cg z (branch d cp y s (branch d cx x a b)) u))
    (hu : u.color = .black)
    (hsum : Summed val aug (plug ctx (branch d cg z (branch d cp y s (branch d cx x a b)) u))) :
    ∃ aug' m', exec (insertSideWith augment.rotate d (some x) (some y) (some z) u.root root) aug m =
        pure ((none, aug'), m') ∧
      Summed val aug' (plug ctx (branch d cg x (branch d .red y s (a.paint .black))
        (branch d .red z (b.paint .black) u))) := by
  have hnd := h.nodup
  have hrep := h.rep
  have hctx := h.repCtx
  have hlink := h.link
  simp only [nodup_plug, nodup_branch, disjoint_branch, disjoint_branch_right, mem_branch,
    not_or] at hnd
  simp only [rep_branch, root_branch] at hrep hlink
  refine ⟨?aug', ?m', ?run, ?sum⟩
  case run =>
    have hbr : ((((m.setChild d.flip y a.root).setChild d x (some y)).adopt a.root (some y)
        .black).setParentColor y (Word.pack (some x) .red)).child d.flip x = b.root := by simp [*]
    simp only [insertSideWith, exec_bind, exec_plain, run_isRedNode hrep.2.2.2.2, pure_bind, hu,
      beq_iff_eq, reduceCtorEq, if_false, run_loadChild, hrep.2.2.2.1.2.2.1, if_true,
      hrep.2.2.2.1.2.2.2.2.2.1, StateT.run_bind, run_storeChild, run_adoptNode, run_rbSetParentColor,
      hcb.rotate_eq, hbr, exec_pure]
    rw [run_rbRotateSetParents ctx (c := cg)]
    · simp only [pure_bind]
      rfl
    all_goals simp [*]
  case sum =>
    simpa only [summed_plug, summed_branch, product_branch, product_paint, summed_paint] using
      summed_rotated₂ hsum h.nodup (by simp [*]) (by simp [*]) (by simp [*]) (by simp [*])

private theorem exec_insertSide_insertRotate (hcb : Maintains val augment bound)
    (h : At m root (⟨dp, cp, y, s⟩ :: ⟨d, cg, z, u⟩ :: ctx) t) (hu : u.color = .black)
    (hx : t.root = some x) (hsum : Summed val aug (plug (⟨dp, cp, y, s⟩ :: ⟨d, cg, z, u⟩ :: ctx) t)) :
    ∃ aug' m', exec (insertSideWith augment.rotate d (some x) (some y) (some z) u.root root) aug m =
        pure ((none, aug'), m') ∧
      Summed val aug' (plug ctx (insertRotate ⟨dp, cp, y, s⟩ ⟨d, cg, z, u⟩ t)) := by
  have hfill := at_fill.mp (at_fill.mp h)
  simp only [plug, Frame.fill, insertRotate] at hfill hsum ⊢
  split
  case isTrue hd =>
    obtain rfl : dp = d := hd
    exact exec_insertSide_rotate hcb hfill hu hx hsum
  case isFalse hd =>
    obtain rfl : dp = d.flip := by cases dp <;> cases d <;> simp_all [Dir.flip]
    cases t with
    | nil => cases hx
    | node cx l x' r =>
      obtain rfl : x' = x := by simpa [ColorTree.root] using hx
      rw [branch_flip, node_eq_branch d] at hfill hsum
      exact exec_insertSide_rotate₂ hcb hfill hu hsum

omit [Monoid V] in
/-- A colour flip calls no callback. -/
private theorem exec_insertSide_flip {p : Option α} (hu : Rep m p u) (hred : u.color = .red)
    (node parent gparent : Option α) :
    exec (insertSideWith augment.rotate d node parent gparent u.root root) aug m =
      exec (plain (insertSide d node parent gparent u.root root)) aug m := by
  simp only [insertSideWith, insertSide, exec_bind, exec_plain, StateT.run_bind, bind_assoc,
    run_isRedNode hu, pure_bind, hred, beq_self_eq_true, if_true]

omit [Monoid V] in
private theorem exec_rbInsertTurn_black (h : At m root (f :: ctx) t) (hf : f.color = .black) :
    exec (rbInsertTurnWith augment.rotate (some x) (above (f :: ctx)) root) aug m =
      pure ((none, aug), m) := by
  simp [rbInsertTurnWith, above_cons, exec_plain, h.repCtx.1, Word.color_pack, hf]

omit [Monoid V] in
private theorem exec_rbInsertTurn_red (h : At m root (⟨dp, .red, y, s⟩ :: ⟨d, cg, z, u⟩ :: ctx) t) :
    exec (rbInsertTurnWith augment.rotate (some x) (some y) root) aug m =
      exec (insertSideWith augment.rotate d (some x) (some y) (some z) u.root root) aug m := by
  obtain ⟨hw, -, -, ⟨-, hsib, -⟩, hlink⟩ := h.repCtx
  rw [read_slot_cons] at hlink
  rw [above_cons] at hw
  have hnd := h.nodup
  simp only [nodup_plug, around, List.cons_append, List.nodup_cons, List.mem_append,
    List.mem_cons, not_or] at hnd
  have hne : some y ≠ u.root := root_ne hnd.2.1.1.2.2.1
  cases d with
  | left =>
    have hr : m.rbRight z = u.root := hsib
    simp only [rbInsertTurnWith, Option.isNone_some, Bool.false_eq_true, if_false, exec_bind,
      exec_plain, run_rbIsBlack, run_rbRedParent hw, hw, Word.color_pack, pure_bind, beq_iff_eq,
      reduceCtorEq, run_loadRight, hr, if_pos hne]
  | right =>
    have hr : m.rbRight z = some y := hlink
    have hl : m.rbLeft z = u.root := hsib
    simp only [rbInsertTurnWith, Option.isNone_some, Bool.false_eq_true, if_false, exec_bind,
      exec_plain, run_rbIsBlack, run_rbRedParent hw, hw, Word.color_pack, pure_bind, beq_iff_eq,
      reduceCtorEq, run_loadRight, hr, ne_eq, not_true_eq_false, run_loadLeft, hl]

/-- A turn ends the loop with the products of the rebalanced tree, or flips colours. -/
private theorem exec_rbInsertTurn (hcb : Maintains val augment bound) (h : InsertHead m root ctx t)
    (hsum : Summed val aug (plug ctx t)) :
    (∃ aug' m', exec (rbInsertTurnWith augment.rotate t.root (above ctx) root) aug m =
        pure ((none, aug'), m') ∧ Summed val aug' (insertFix ctx t)) ∨
    ∃ m' ctx' t', exec (rbInsertTurnWith augment.rotate t.root (above ctx) root) aug m =
        pure ((some (t'.root, above ctx'), aug), m') ∧
      InsertHead m' root ctx' t' ∧ Summed val aug (plug ctx' t') ∧ ctx'.length < ctx.length ∧
      insertFix ctx t = insertFix ctx' t' := by
  obtain ⟨hat, p, n, ha, ht⟩ := h
  obtain ⟨x, hx⟩ := ht.exists_root
  rw [hx]
  fun_cases insertFix ctx t with
  | case1 t =>
    obtain ⟨m', hrun, -⟩ := run_rbInsertTurn_root hat hx
    exact .inl ⟨aug, m', exec_plain_of hrun, summed_paint.mpr hsum⟩
  | case2 f t =>
    have hf : f.color = .black := by
      cases ha with
      | red _ h => cases h
      | black => rfl
    exact .inl ⟨aug, m, exec_rbInsertTurn_black hat hf, hsum⟩
  | case3 f g ctx t hb => exact .inl ⟨aug, m, exec_rbInsertTurn_black hat hb, hsum⟩
  | case4 f g ctx t hr hu =>
    obtain ⟨dp, cp, y, s⟩ := f
    obtain ⟨d, cg, z, u⟩ := g
    cases ha with
    | black => exact absurd rfl hr
    | red hs ha =>
      cases ha with
      | black hun ha =>
        obtain rfl := hun.color_eq.symm.trans hu
        obtain ⟨m', hrun, hmoved⟩ := run_insertSide_flip (x := x) (d := d) hat hu
        have hred := Balanced.branch_red (d := d) (x := z)
          (.branch_black (d := dp) (x := y) ht hs) hun.paint_black
        refine .inr ⟨m', ctx, _, ?_, ⟨hmoved.toAt, _, _, ha, hred⟩, ?_, ?_, rfl⟩
        · rw [root_branch, above_cons, exec_rbInsertTurn_red hat,
            exec_insertSide_flip hat.repCtx.2.2.2.1.2.2.1 hu]
          exact exec_plain_of hrun
        · simpa only [plug, Frame.fill, summed_plug, summed_branch, product_branch, product_paint,
            summed_paint] using hsum
        · simp only [List.length_cons]
          omega
  | case5 f g ctx t hr hu =>
    obtain ⟨dp, cp, y, s⟩ := f
    obtain ⟨d, cg, z, u⟩ := g
    cases ha with
    | black => exact absurd rfl hr
    | red hs ha =>
      obtain ⟨aug', m', hrun, hsum'⟩ :=
        exec_insertSide_insertRotate hcb hat (Color.eq_black hu) hx hsum
      exact .inl ⟨aug', m', (exec_rbInsertTurn_red hat).trans hrun, hsum'⟩

end Turn

section Loop
variable [Word α W] [DecidableEq α] [DecidableEq ρ] {val aug : α → V}
  {augment : AugmentCallbacks α W ρ (α → V)} {bound fuel : Nat} {m : Memory α W ρ} {root : ρ} {x : α}
  {t : ColorTree α} {ctx : List (Frame α)}

theorem exec_rbInsertLoop (hcb : Maintains val augment bound) (h : InsertHead m root ctx t)
    (hsum : Summed val aug (plug ctx t)) (hfuel : ctx.length ≤ fuel) :
    ∃ aug' m', exec (rbInsertLoopWith augment.rotate root (fuel + 1) t.root (above ctx)) aug m =
        pure (((), aug'), m') ∧ Summed val aug' (insertFix ctx t) := by
  induction fuel generalizing m ctx t with
  | zero =>
    rcases exec_rbInsertTurn hcb h hsum with ⟨aug', m', hrun, hsum'⟩ | ⟨m₁, ctx', t', -, -, -, hlt, -⟩
    · refine ⟨aug', m', ?_, hsum'⟩
      rw [rbInsertLoopWith_succ, exec_bind, hrun]
      rfl
    · omega
  | succ fuel ih =>
    rcases exec_rbInsertTurn hcb h hsum with
      ⟨aug', m', hrun, hsum'⟩ | ⟨m₁, ctx', t', hrun, hhead, hsum', hlt, hfix⟩
    · refine ⟨aug', m', ?_, hsum'⟩
      rw [rbInsertLoopWith_succ, exec_bind, hrun]
      rfl
    · obtain ⟨aug', m', hrest, hsum''⟩ := ih hhead hsum' (by omega)
      refine ⟨aug', m', ?_, hfix ▸ hsum''⟩
      rw [rbInsertLoopWith_succ, exec_bind, hrun]
      exact hrest

end Loop
end CommonProject.RBTree

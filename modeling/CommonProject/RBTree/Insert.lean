import CommonProject.RBTree.Rotation
import CommonProject.RBTree.Turns

/-! `rb_insert_color` computes the rebalanced tree. -/
namespace CommonProject.RBTree
open Foundations.RedBlack Foundations.RedBlack.ColorTree
variable {α W ρ : Type} [Word α W] [DecidableEq α] [DecidableEq ρ]

section Turn
variable {m : Memory α W ρ} {root : ρ} {d dp dg : Dir} {x y z : α} {a b s t u : ColorTree α}
  {ctx : List (Frame α)} {c cp cg cx : Color} {f g : Frame α}

/-- At the root, the node turns black. -/
theorem run_rbInsertTurn_root (h : At m root [] t) (hx : t.root = some x) :
    ∃ m', (rbInsertTurn (some x) none root).run m = pure (none, m') ∧
      Moved m m' root [] (t.paint .black) := by
  refine ⟨m.adopt t.root none .black, by rw [hx]; rfl, ?_⟩
  have hnd : t.toList.Nodup := h.nodup
  apply h.moved
  case horder => exact toList_paint
  case hctx => trivial
  case hlink => simp [h.link]
  case hrep => simp [above, hnd, h.rep.kids]
  case hout =>
    intro y hy _
    simp [hy]
  case hroots => simp

/-- Below a black node there is nothing to do. -/
theorem run_rbInsertTurn_black (h : At m root (f :: ctx) t) (hf : f.color = .black) :
    (rbInsertTurn (some x) (above (f :: ctx)) root).run m = pure (none, m) := by
  simp [rbInsertTurn, above_cons, h.repCtx.1, Word.color_pack, hf]

/-- Which branch runs below a red node. -/
theorem run_rbInsertTurn_red (h : At m root (⟨dp, .red, y, s⟩ :: ⟨d, cg, z, u⟩ :: ctx) t) :
    (rbInsertTurn (some x) (some y) root).run m =
      (insertSide d (some x) (some y) (some z) u.root root).run m := by
  obtain ⟨hw, -, -, ⟨-, hsib, -⟩, hlink⟩ := h.repCtx
  rw [read_slot_cons] at hlink
  rw [above_cons] at hw
  have hnd := h.nodup
  simp only [nodup_plug, around, List.cons_append, List.nodup_cons, List.mem_append,
    List.mem_cons, not_or] at hnd
  have hne : some y ≠ u.root := root_ne hnd.2.1.1.2.2.1
  cases d with
  | left =>
    have hr : m.rbRight z = u.root := hsib
    simp only [rbInsertTurn, Option.isNone_some, Bool.false_eq_true, if_false, StateT.run_bind,
      run_rbIsBlack, run_rbRedParent hw, hw, Word.color_pack, pure_bind, beq_iff_eq, reduceCtorEq,
      run_loadRight, hr, if_pos hne, rbInsertLeft_eq]
  | right =>
    have hr : m.rbRight z = some y := hlink
    have hl : m.rbLeft z = u.root := hsib
    simp only [rbInsertTurn, Option.isNone_some, Bool.false_eq_true, if_false, StateT.run_bind,
      run_rbIsBlack, run_rbRedParent hw, hw, Word.color_pack, pure_bind, beq_iff_eq, reduceCtorEq,
      run_loadRight, hr, ne_eq, not_true_eq_false, run_loadLeft, hl, rbInsertRight_eq]

/-- A red uncle: the colours flip, and the grandparent is the next node. -/
theorem run_insertSide_flip (h : At m root (⟨dp, cp, y, s⟩ :: ⟨dg, cg, z, u⟩ :: ctx) t)
    (hu : u.color = .red) :
    ∃ m', (insertSide d (some x) (some y) (some z) u.root root).run m =
        pure (some (some z, above ctx), m') ∧
      Moved m m' root ctx
        (branch dg .red z (Frame.fill ⟨dp, .black, y, s⟩ t) (u.paint .black)) := by
  have hfill := at_fill.mp (at_fill.mp h)
  have hnd := hfill.nodup
  have hrep := hfill.rep
  have hctx := hfill.repCtx
  have hlink := hfill.link
  simp only [Frame.fill, nodup_plug, nodup_branch, disjoint_branch, mem_branch, not_or] at hnd
  simp only [Frame.fill, rep_branch, root_branch] at hrep hlink
  have hur : Kids m u := hrep.2.2.2.2.kids
  have hne : u ≠ .nil := by
    rintro rfl
    cases hu
  refine ⟨?m', ?run, ?moved⟩
  case run =>
    have hz : (m.adopt u.root (some z) .black |>.setParentColor y (Word.pack (some z) .black)).rbParentColor z =
        Word.pack (above ctx) cg := by simp [*]
    simp only [insertSide, StateT.run_bind, run_isRedNode hrep.2.2.2.2, pure_bind, hu,
      beq_self_eq_true, if_true, run_rbSetParentColor_root hne, run_rbSetParentColor, run_rbParent,
      hz, Word.parent_pack]
    rfl
  case moved =>
    apply hfill.moved
    case horder => cases dg <;> cases dp <;> simp [Frame.fill, branch, toList]
    case hctx => simp [*]
    case hlink => simp [hlink]
    case hrep => simp [*, rep_branch, Frame.fill]
    case hout =>
      intro w hw hw'
      simp only [Frame.fill, mem_branch, not_or] at hw
      simp [hw]
    case hroots => simp

/-- A black uncle on the other side of a straight line: one rotation. -/
private theorem run_insertSide_rotate (h : At m root ctx (branch d cg z (branch d cp y t s) u))
    (hu : u.color = .black) (hx : t.root = some x) :
    ∃ m', (insertSide d (some x) (some y) (some z) u.root root).run m = pure (none, m') ∧
      Moved m m' root ctx (branch d cg y t (branch d .red z (s.paint .black) u)) := by
  have hnd := h.nodup
  have hrep := h.rep
  have hctx := h.repCtx
  have hlink := h.link
  simp only [nodup_plug, nodup_branch, disjoint_branch, mem_branch, not_or] at hnd
  simp only [rep_branch, root_branch] at hrep hlink
  have hne : some x ≠ s.root := root_ne fun hs => hnd.1.2.2.1.2.2.2.2 (root_mem hx) hs
  have hmoved := rotate_moved h t.color .black .red
  rw [paint_color rfl, adopt_color (by simp [*])] at hmoved
  refine ⟨_, ?_, hmoved⟩
  simp only [insertSide, StateT.run_bind, run_isRedNode hrep.2.2.2.2, pure_bind, hu, beq_iff_eq,
    reduceCtorEq, if_false, run_loadChild, hrep.2.2.2.1.2.2.1, hne, StateT.run_pure,
    run_storeChild, run_adoptNode]
  rw [run_rbRotateSetParents ctx (c := cg)]
  · rfl
  all_goals simp [*]

/-- A black uncle on the other side of a bent line: two rotations. -/
private theorem run_insertSide_rotate₂
    (h : At m root ctx (branch d cg z (branch d cp y s (branch d cx x a b)) u))
    (hu : u.color = .black) :
    ∃ m', (insertSide d (some x) (some y) (some z) u.root root).run m = pure (none, m') ∧
      Moved m m' root ctx (branch d cg x (branch d .red y s (a.paint .black))
        (branch d .red z (b.paint .black) u)) := by
  have hnd := h.nodup
  have hrep := h.rep
  have hctx := h.repCtx
  have hlink := h.link
  simp only [nodup_plug, nodup_branch, disjoint_branch, disjoint_branch_right, mem_branch,
    not_or] at hnd
  simp only [rep_branch, root_branch] at hrep hlink
  have ha : Kids m a := hrep.2.2.2.1.2.2.2.2.2.2.2.1.kids
  have hb : Kids m b := hrep.2.2.2.1.2.2.2.2.2.2.2.2.kids
  refine ⟨?m', ?run, ?moved⟩
  case run =>
    have hbr : ((((m.setChild d.flip y a.root).setChild d x (some y)).adopt a.root (some y)
        .black).setParentColor y (Word.pack (some x) .red)).child d.flip x = b.root := by simp [*]
    simp only [insertSide, StateT.run_bind, run_isRedNode hrep.2.2.2.2, pure_bind, hu, beq_iff_eq,
      reduceCtorEq, if_false, run_loadChild, hrep.2.2.2.1.2.2.1, if_true, hrep.2.2.2.1.2.2.2.2.2.1,
      run_storeChild, run_adoptNode, run_rbSetParentColor, hbr, StateT.run_pure]
    rw [run_rbRotateSetParents ctx (c := cg)]
    · rfl
    all_goals simp [*]
  case moved =>
    apply h.moved
    case horder => cases d <;> simp [branch, toList]
    case hctx => simp [*]
    case hlink => simp
    case hrep => simp [*, rep_branch]
    case hout =>
      intro w hw hw'
      simp only [mem_branch, not_or] at hw
      simp [hw, hw']
    case hroots =>
      intro r hr
      simp [hr]

/-- The two kinds of rotation, as the tree computes them. -/
theorem run_insertSide_insertRotate
    (h : At m root (⟨dp, cp, y, s⟩ :: ⟨d, cg, z, u⟩ :: ctx) t) (hu : u.color = .black)
    (hx : t.root = some x) :
    ∃ m', (insertSide d (some x) (some y) (some z) u.root root).run m = pure (none, m') ∧
      Moved m m' root ctx (insertRotate ⟨dp, cp, y, s⟩ ⟨d, cg, z, u⟩ t) := by
  have hfill := at_fill.mp (at_fill.mp h)
  simp only [Frame.fill, insertRotate] at hfill ⊢
  split
  case isTrue hd =>
    obtain rfl : dp = d := hd
    exact run_insertSide_rotate hfill hu hx
  case isFalse hd =>
    obtain rfl : dp = d.flip := by cases dp <;> cases d <;> simp_all [Dir.flip]
    cases t with
    | nil => cases hx
    | node cx l x' r =>
      obtain rfl : x' = x := by simpa [ColorTree.root] using hx
      rw [branch_flip, node_eq_branch d] at hfill
      exact run_insertSide_rotate₂ hfill hu

end Turn

section Loop
variable {m m' : Memory α W ρ} {root : ρ} {x : α} {t : ColorTree α} {ctx : List (Frame α)}
  {node parent node' parent' : Option α} {fuel : Nat}

private theorem run_rbInsertLoop_none
    (h : (rbInsertTurn node parent root).run m = pure (none, m')) :
    (rbInsertLoop root (fuel + 1) node parent).run m = pure ((), m') := by
  rw [rbInsertLoop_succ, run_turn_none h]

private theorem run_rbInsertLoop_some
    (h : (rbInsertTurn node parent root).run m = pure (some (node', parent'), m')) :
    (rbInsertLoop root (fuel + 1) node parent).run m =
      (rbInsertLoop root fuel node' parent').run m' := by
  rw [rbInsertLoop_succ, run_turn_some h]

/-- What holds whenever the loop of `__rb_insert` begins a turn: the node at the root of `t` is red,
and all else is in order. -/
structure InsertHead (m : Memory α W ρ) (root : ρ) (ctx : List (Frame α)) (t : ColorTree α) : Prop
    extends At m root ctx t where
  balanced : ∃ p n, Around ctx p n ∧ Balanced t .red n

/-- A turn ends the loop with the rebalanced tree, or goes on closer to the root. -/
theorem run_rbInsertTurn (h : InsertHead m root ctx t) :
    (∃ m', (rbInsertTurn t.root (above ctx) root).run m = pure (none, m') ∧
      Moved m m' root [] (insertFix ctx t)) ∨
    ∃ m' ctx' t', (rbInsertTurn t.root (above ctx) root).run m =
        pure (some (t'.root, above ctx'), m') ∧
      Moved m m' root ctx' t' ∧ InsertHead m' root ctx' t' ∧ ctx'.length < ctx.length ∧
      insertFix ctx t = insertFix ctx' t' := by
  obtain ⟨hat, p, n, ha, ht⟩ := h
  obtain ⟨x, hx⟩ := ht.exists_root
  rw [hx]
  fun_cases insertFix ctx t with
  | case1 t => exact .inl (run_rbInsertTurn_root hat hx)
  | case2 f t =>
    have hf : f.color = .black := by
      cases ha with
      | red _ h => cases h
      | black => rfl
    exact .inl ⟨m, run_rbInsertTurn_black hat hf, moved_plug.mp hat.moved_refl⟩
  | case3 f g ctx t hb =>
    exact .inl ⟨m, run_rbInsertTurn_black hat hb, moved_plug.mp hat.moved_refl⟩
  | case4 f g ctx t hr hu =>
    obtain ⟨dp, cp, y, s⟩ := f
    obtain ⟨d, cg, z, u⟩ := g
    cases ha with
    | black => exact absurd rfl hr
    | red hs ha =>
      cases ha with
      | black hun ha =>
        obtain rfl := hun.color_eq.symm.trans hu
        obtain ⟨m', hrun, hmoved⟩ := run_insertSide_flip (x := x) hat hu
        rw [← run_rbInsertTurn_red hat] at hrun
        have hred := Balanced.branch_red (d := d) (x := z)
          (.branch_black (d := dp) (x := y) ht hs) hun.paint_black
        refine .inr ⟨m', ctx, _, ?_, hmoved, ⟨hmoved.toAt, _, _, ha, hred⟩, ?_, rfl⟩
        · rw [root_branch]
          exact hrun
        · simp only [List.length_cons]
          omega
  | case5 f g ctx t hr hu =>
    obtain ⟨dp, cp, y, s⟩ := f
    obtain ⟨d, cg, z, u⟩ := g
    cases ha with
    | black => exact absurd rfl hr
    | red hs ha =>
      obtain ⟨m', hrun, hmoved⟩ := run_insertSide_insertRotate hat (Color.eq_black hu) hx
      rw [← run_rbInsertTurn_red hat] at hrun
      exact .inl ⟨m', hrun, moved_plug.mp hmoved⟩

/-- The loop ends, at the latest at the root. -/
private theorem run_rbInsertLoop (h : InsertHead m root ctx t) (hfuel : ctx.length ≤ fuel) :
    ∃ m', (rbInsertLoop root (fuel + 1) t.root (above ctx)).run m = pure ((), m') ∧
      Moved m m' root [] (insertFix ctx t) := by
  induction fuel generalizing m ctx t with
  | zero =>
    rcases run_rbInsertTurn h with ⟨m', hrun, hmoved⟩ | ⟨m₁, ctx', t', -, -, -, hlt, -⟩
    · exact ⟨m', run_rbInsertLoop_none hrun, hmoved⟩
    · omega
  | succ fuel ih =>
    rcases run_rbInsertTurn h with ⟨m', hrun, hmoved⟩ | ⟨m₁, ctx', t', hrun, hmoved, hhead, hlt, hfix⟩
    · exact ⟨m', run_rbInsertLoop_none hrun, hmoved⟩
    · obtain ⟨m', hrest, hmoved'⟩ := ih hhead (by omega)
      rw [hfix]
      refine ⟨m', (run_rbInsertLoop_some hrun).trans hrest, hmoved.trans hmoved' ?_⟩
      obtain ⟨p, n, -, ht⟩ := hhead.balanced
      obtain ⟨x, hx⟩ := ht.exists_root
      exact toList_insertFix ctx' (by simp [hx])

end Loop

section Insert
variable {m : Memory α W ρ} {root : ρ} {x : α} {ctx : List (Frame α)}

/-- Linking a new node at an empty place. -/
theorem run_rbLinkNode (h : At m root ctx .nil) (hx : x ∉ around ctx) :
    ∃ m', (rbLinkNode (some x) (above ctx) (slot root ctx)).run m = pure ((), m') ∧
      Moved m m' root ctx (.node .red .nil x .nil) := by
  have hnd : (around ctx).Nodup := (nodup_plug.mp h.nodup).2.1
  have hctx := h.repCtx
  refine ⟨(((m.setParentColor x (Word.pack (above ctx) .red)).setChild (Dir.flip .left) x
    none).setChild .left x none).write (some x) (slot root ctx), ?_, ⟨?_, ?_, ?_, ?_⟩, ?_, ?_⟩
  · rw [← Word.ofParent_eq]
    rfl
  · simp [*]
  · simp [ColorTree.root]
  · change Rep _ _ (branch .left .red x .nil .nil)
    simp [*, rep_branch, ColorTree.root, Rep]
  · rw [nodup_plug]
    simp [*, toList]
  · intro y hy
    rw [mem_plug, not_or] at hy
    simp only [toList, List.nil_append, List.mem_singleton] at hy
    simp [hy]
  · intro r hr
    simp [hr]

theorem run_rbInsertColor {l r : ColorTree α} (h : InsertHead m root ctx (.node .red l x r))
    {fuel : Nat} (hfuel : ctx.length < fuel) :
    ∃ m', (rbInsertColor fuel (some x) root).run m = pure ((), m') ∧
      Moved m m' root [] (insertFix ctx (.node .red l x r)) := by
  obtain ⟨k, rfl⟩ := Nat.exists_eq_add_one_of_ne_zero (Nat.ne_zero_of_lt hfuel)
  obtain ⟨m', hloop, hmoved⟩ := run_rbInsertLoop h (Nat.le_of_lt_succ hfuel)
  refine ⟨m', ?_, hmoved⟩
  rw [rbInsertColor, StateT.run_bind, run_rbRedParent h.rep.1, pure_bind]
  exact hloop

/-- Linking and rebalancing. -/
theorem run_rbInsert (h : At m root ctx .nil) (hx : x ∉ around ctx) {N : Nat}
    (hb : Balanced (plug ctx .nil) .black N) {fuel : Nat} (hfuel : ctx.length < fuel) :
    ∃ m', (rbInsert fuel (some x) (above ctx) (slot root ctx) root).run m = pure ((), m') ∧
      Moved m m' root [] (insertFix ctx (.node .red .nil x .nil)) := by
  obtain ⟨p, c, n, ha, hnil, -⟩ := hb.around
  cases hnil
  obtain ⟨m₁, hlink, hmoved⟩ := run_rbLinkNode h hx
  obtain ⟨m', hcolor, hmoved'⟩ := run_rbInsertColor ⟨hmoved.toAt, _, _, ha, .red .nil .nil⟩ hfuel
  refine ⟨m', ?_, hmoved.trans hmoved' ?_⟩
  · rw [rbInsert, StateT.run_bind, hlink, pure_bind]
    exact hcolor
  · rw [plug, toList_insertFix ctx (by simp [ColorTree.root])]

end Insert
end CommonProject.RBTree

import CommonProject.RBTree.Insert

/-! `rb_erase` computes the tree without the node. -/
namespace CommonProject.RBTree
open Foundations.RedBlack Foundations.RedBlack.ColorTree
variable {α W ρ : Type} [Word α W] [DecidableEq α] [DecidableEq ρ]

section Turn
variable {m : Memory α W ρ} {root : ρ} {d : Dir} {x y s : α} {a b t near far sib : ColorTree α}
  {ctx : List (Frame α)} {c cs cy : Color}

/-- Which branch runs, though the deficient side may be NULL. -/
theorem run_rbEraseColorTurn_side (h : At m root (⟨d, c, x, sib⟩ :: ctx) t) (hs : sib ≠ .nil) :
    (rbEraseColorTurn t.root (some x) root).run m = (eraseSide d (some x) sib.root root).run m := by
  obtain ⟨-, hsib, -⟩ := h.repCtx
  have hlink := h.link
  rw [read_slot_cons] at hlink
  have hne : t.root ≠ sib.root := by
    intro heq
    cases sib with
    | nil => exact hs rfl
    | node cs l v r =>
      have hd := (nodup_plug.mp h.nodup).2.2
      exact hd (root_mem heq) (by simp [around, toList])
  cases d with
  | left =>
    have hr : m.rbRight x = sib.root := hsib
    simp only [rbEraseColorTurn, StateT.run_bind, run_loadRight, pure_bind, hr, ne_eq, hne,
      not_false_eq_true, if_true, rbEraseLeft_eq]
  | right =>
    have hr : m.rbRight x = t.root := hlink
    have hl : m.rbLeft x = sib.root := hsib
    simp only [rbEraseColorTurn, StateT.run_bind, run_loadRight, pure_bind, hr, ne_eq,
      not_true_eq_false, if_false, run_loadLeft, hl, rbEraseRight_eq]

/-- Case 1: a red sibling is rotated to the top. -/
theorem run_eraseCase1 (h : At m root ctx (branch d c x t (branch d .red s near far)))
    (hn : near ≠ .nil) :
    ∃ m', (eraseCase1 d (some x) (some s) root).run m = pure (near.root, m') ∧
      Moved m m' root ctx (branch d c s (branch d .red x t (near.paint .black)) far) := by
  have hnd := h.nodup
  have hrep := h.rep
  have hctx := h.repCtx
  have hlink := h.link
  simp only [nodup_plug, nodup_branch, disjoint_branch, disjoint_branch_right, mem_branch,
    not_or] at hnd
  simp only [rep_branch, root_branch] at hrep hlink
  have hflip : At m root ctx (branch d.flip c x (branch d.flip .red s far near) t) := by
    simpa only [branch_flip] using h
  have hmoved := rotate_moved hflip far.color .black .red
  rw [paint_color rfl, adopt_color (by simp [*]), branch_flip, branch_flip] at hmoved
  refine ⟨_, ?_, hmoved⟩
  simp only [eraseCase1, StateT.run_bind, run_loadChild, hrep, pure_bind, run_storeChild,
    run_rbSetParentColor_root hn, StateT.run_pure, Dir.flip_flip]
  rw [run_rbRotateSetParents ctx (c := c)]
  · rfl
  all_goals simp [*]

/-- Case 4: the far child is red. -/
private theorem run_eraseCase4 (h : At m root ctx (branch d c x t (branch d cs s near far)))
    (hf : far ≠ .nil) :
    ∃ m', (eraseCase4 d (some x) (some s) far.root root).run m = pure (none, m') ∧
      Moved m m' root ctx (branch d c s (branch d .black x t near) (far.paint .black)) := by
  have hnd := h.nodup
  have hrep := h.rep
  have hctx := h.repCtx
  have hlink := h.link
  simp only [nodup_plug, nodup_branch, disjoint_branch, disjoint_branch_right, mem_branch,
    not_or] at hnd
  simp only [rep_branch, root_branch] at hrep hlink
  have hflip : At m root ctx (branch d.flip c x (branch d.flip cs s far near) t) := by
    simpa only [branch_flip] using h
  have hmoved := rotate_moved hflip .black near.color .black
  rw [paint_color (t := near) rfl, branch_flip, branch_flip] at hmoved
  refine ⟨_, ?_, hmoved⟩
  simp only [eraseCase4, StateT.run_bind, run_loadChild, hrep, pure_bind, run_storeChild,
    run_rbSetParentColor_root hf, StateT.run_pure, Dir.flip_flip]
  rw [run_keep (p := some s) (by simp [*]), pure_bind, run_rbRotateSetParents ctx (c := c)]
  · rfl
  all_goals simp [*]

omit [DecidableEq α] in
theorem ne_nil_of_red (h : t.color = .red) : t ≠ .nil := by
  rintro rfl
  cases h

private theorem run_eraseBlack_far (h : At m root ctx (branch d c x t (branch d cs s near far)))
    (hf : far.color = .red) :
    ∃ m', (eraseBlack d (some x) (some s) root).run m = pure (none, m') ∧
      Moved m m' root ctx (branch d c s (branch d .black x t near) (far.paint .black)) := by
  obtain ⟨m', hrun, hmoved⟩ := run_eraseCase4 h (ne_nil_of_red hf)
  refine ⟨m', ?_, hmoved⟩
  have hrep := h.rep
  simp only [rep_branch, root_branch] at hrep
  simp only [eraseBlack, StateT.run_bind, run_loadChild, hrep, pure_bind,
    run_isBlackOrNull hrep.2.2.2.2.2.2.2.2, hf, beq_iff_eq, reduceCtorEq, if_false, hrun]

/-- Cases 3 and 4: the near child is red. -/
private theorem run_eraseBlack_near
    (h : At m root ctx (branch d c x t (branch d cs s (branch d .red y a b) far)))
    (hf : far.color = .black) :
    ∃ m', (eraseBlack d (some x) (some s) root).run m = pure (none, m') ∧
      Moved m m' root ctx
        (branch d c y (branch d .black x t a) (branch d .black s (b.paint .black) far)) := by
  have hnd := h.nodup
  have hrep := h.rep
  have hctx := h.repCtx
  have hlink := h.link
  simp only [nodup_plug, nodup_branch, disjoint_branch, disjoint_branch_right, mem_branch,
    not_or] at hnd
  simp only [rep_branch, root_branch] at hrep hlink
  have hb : Kids m b := hrep.2.2.2.2.2.2.2.1.2.2.2.2.kids
  have ha : Rep m (some y) a := hrep.2.2.2.2.2.2.2.1.2.2.2.1
  have hak : Kids m a := ha.kids
  refine ⟨?m', ?run, ?moved⟩
  case run =>
    have hay : ((((m.setChild d s b.root).setChild d.flip y (some s)).setChild d.flip x
        (some y)).adopt b.root (some s) .black).child d y = a.root := by simp [*]
    simp only [eraseBlack, StateT.run_bind, run_loadChild, hrep, pure_bind,
      run_isBlackOrNull hrep.2.2.2.2.2.2.2.2, hf, beq_self_eq_true, if_true, beq_iff_eq,
      run_isBlackOrNull_some, Word.color_pack, reduceCtorEq, if_false, run_storeChild,
      run_adoptNode, eraseCase4, hay, run_rbSetParentColor]
    rw [run_keep (p := some y) (by simp [*]), pure_bind,
      run_rbRotateSetParents ctx (c := c)]
    · rfl
    all_goals simp [*]
  case moved =>
    apply h.moved
    case horder => cases d <;> simp [branch, toList]
    case hctx => simp [*]
    case hlink => simp
    case hrep => simp [*, rep_branch]
    case hout =>
      intro w hw hw'
      simp only [mem_branch, not_or] at hw
      simp [hw, hw']
    case hroots =>
      intro r hr
      simp [hr]

/-- Case 2: the sibling turns red. Below a red parent that settles it, else the parent is next. -/
private theorem run_eraseBlack_flip (h : At m root ctx (branch d c x t (branch d cs s near far)))
    (hn : near.color = .black) (hf : far.color = .black) :
    ∃ m', (eraseBlack d (some x) (some s) root).run m =
        pure (if c = .red ∨ ctx = [] then none else some (some x, above ctx), m') ∧
      Moved m m' root ctx (branch d .black x t (branch d .red s near far)) := by
  have hnd := h.nodup
  have hrep := h.rep
  have hctx := h.repCtx
  have hlink := h.link
  simp only [nodup_plug, nodup_branch, disjoint_branch, disjoint_branch_right, mem_branch,
    not_or] at hnd
  simp only [rep_branch, root_branch] at hrep hlink
  have hx : (m.setParentColor s (Word.pack (some x) .red)).rbParentColor x =
      Word.pack (above ctx) c := by simp [*]
  refine ⟨(m.setParentColor s (Word.pack (some x) .red)).setParentColor x
    (Word.pack (above ctx) .black), ?run, ?moved⟩
  case run =>
    simp only [eraseBlack, StateT.run_bind, run_loadChild, hrep, pure_bind,
      run_isBlackOrNull hrep.2.2.2.2.2.2.2.2, run_isBlackOrNull hrep.2.2.2.2.2.2.2.1, hf, hn,
      beq_self_eq_true, if_true, run_rbSetParentColor, run_rbIsRed, hx, Word.color_pack]
    cases c with
    | red => simp [hx, Word.setBlack_pack]
    | black =>
      rw [Memory.setParentColor_eq_self hx]
      cases ctx <;> simp [hx, Word.parent_pack, above]
  case moved =>
    apply h.moved
    case horder => cases d <;> simp [branch, toList]
    case hctx => simp [*]
    case hlink => simp [hlink]
    case hrep => simp [*, rep_branch]
    case hout =>
      intro w hw hw'
      simp only [mem_branch, not_or] at hw
      simp [hw]
    case hroots => simp

theorem run_eraseBlack_some {u : ColorTree α} (h : At m root ctx (branch d c x t sib))
    (hr : EraseRotates d c x t sib (some u)) :
    ∃ m', (eraseBlack d (some x) sib.root root).run m = pure (none, m') ∧
      Moved m m' root ctx u := by
  cases hr with
  | far hf =>
    rw [root_branch]
    exact run_eraseBlack_far h hf
  | near hf =>
    rw [root_branch]
    exact run_eraseBlack_near h hf

theorem run_eraseBlack_none (h : At m root ctx (branch d c x t sib)) (hs : sib ≠ .nil)
    (hr : EraseRotates d c x t sib none) :
    ∃ m', (eraseBlack d (some x) sib.root root).run m =
        pure (if c = .red ∨ ctx = [] then none else some (some x, above ctx), m') ∧
      Moved m m' root ctx (branch d .black x t (sib.paint .red)) := by
  cases hr with
  | flip hn hf =>
    rw [root_branch, paint_branch]
    exact run_eraseBlack_flip h hn hf
  | leaf => exact absurd rfl hs

private theorem run_eraseSide_black (h : At m root ctx (branch d c x t sib)) (hs : sib ≠ .nil)
    (hb : sib.color = .black) :
    (eraseSide d (some x) sib.root root).run m = (eraseBlack d (some x) sib.root root).run m := by
  cases sib with
  | nil => exact absurd rfl hs
  | node cs l s r =>
    have hw := (rep_branch.mp h.rep).2.2.2.2.1
    obtain rfl : cs = .black := hb
    simp [eraseSide, ColorTree.root, hw, Word.color_pack]

/-- A red sibling: below it, the parent is red and one more turn settles it. -/
theorem run_eraseSide_red (h : At m root ctx (branch d c x t (branch d .red s near far)))
    (hn : near ≠ .nil) :
    ∃ m', (eraseSide d (some x) (some s) root).run m = pure (none, m') ∧
      Moved m m' root ctx (branch d c s ((eraseRotate ⟨d, .red, x, near.paint .black⟩ t).getD
        (branch d .black x t ((near.paint .black).paint .red))) far) := by
  obtain ⟨m₁, hcase1, hmoved⟩ := run_eraseCase1 h hn
  have hs := (rep_branch.mp (rep_branch.mp h.rep).2.2.2.2).1
  have hrun : (eraseSide d (some x) (some s) root).run m =
      (eraseBlack d (some x) (near.paint .black).root root).run m₁ := by
    simp [eraseSide, hs, Word.color_pack, hcase1]
  have hat := at_fill (f := ⟨d, c, s, far⟩) |>.mpr hmoved.toAt
  have hn' : near.paint .black ≠ .nil := by
    cases near with
    | nil => exact absurd rfl hn
    | node => exact nofun
  have hspec := eraseRotate_spec ⟨d, .red, x, near.paint .black⟩ t
  rw [hrun]
  cases hr : eraseRotate ⟨d, .red, x, near.paint .black⟩ t with
  | some u =>
    rw [hr] at hspec
    obtain ⟨m', hblack, hmoved'⟩ := run_eraseBlack_some hat hspec
    exact ⟨m', hblack, hmoved.trans (moved_fill.mp hmoved') (toList_plug_congr
      (toList_branch_congr d c c s hspec.toList_eq rfl))⟩
  | none =>
    rw [hr] at hspec
    obtain ⟨m', hblack, hmoved'⟩ := run_eraseBlack_none hat hn' hspec
    refine ⟨m', ?_, hmoved.trans (moved_fill.mp hmoved') ?_⟩
    · simpa using hblack
    · exact toList_plug_congr
        (toList_branch_congr d c c s (toList_branch_congr d _ _ x rfl toList_paint) rfl)

end Turn
section Loop
variable {m m' : Memory α W ρ} {root : ρ} {t : ColorTree α} {ctx : List (Frame α)} {p : Color}
  {n : Nat} {node parent node' parent' : Option α} {fuel : Nat}

private theorem run_rbEraseColorLoop_none
    (h : (rbEraseColorTurn node parent root).run m = pure (none, m')) :
    (rbEraseColorLoop root (fuel + 1) node parent).run m = pure ((), m') := by
  rw [rbEraseColorLoop_succ, run_turn_none h]

private theorem run_rbEraseColorLoop_some
    (h : (rbEraseColorTurn node parent root).run m = pure (some (node', parent'), m')) :
    (rbEraseColorLoop root (fuel + 1) node parent).run m =
      (rbEraseColorLoop root fuel node' parent').run m' := by
  rw [rbEraseColorLoop_succ, run_turn_some h]

omit [Word α W] [DecidableEq α] [DecidableEq ρ] in
/-- The sibling of a deficient side is there, and black unless the loop sees a red one. -/
theorem sibling_black {f : Frame α} (ha : Around (f :: ctx) p (n + 1))
    (hne : ∀ l s r, f.sibling = .node .red l s r → False) :
    f.sibling ≠ .nil ∧ f.sibling.color = .black := by
  cases ha with
  | red hs => exact ⟨hs.ne_nil, hs.color_eq⟩
  | black hs =>
    obtain rfl := hs.black_of_ne hne
    exact ⟨hs.ne_nil, hs.color_eq⟩

/-- With a black sibling, a turn is what `eraseBlack` does. -/
theorem run_rbEraseColorTurn_black {f : Frame α} (h : At m root (f :: ctx) t)
    (hs : f.sibling ≠ .nil) (hb : f.sibling.color = .black) :
    (rbEraseColorTurn t.root (above (f :: ctx)) root).run m =
      (eraseBlack f.dir (some f.value) f.sibling.root root).run m :=
  (run_rbEraseColorTurn_side h hs).trans (run_eraseSide_black (at_fill.mp h) hs hb)

/-- What holds whenever the loop of `____rb_erase_color` begins a turn: all paths through the black
tree `t` lack one black node, and it is not the whole tree. -/
structure EraseHead (m : Memory α W ρ) (root : ρ) (ctx : List (Frame α)) (t : ColorTree α) : Prop
    extends At m root ctx t where
  balanced : ∃ p n, Around ctx p (n + 1) ∧ Balanced t .black n
  below : ctx ≠ []

/-- A turn ends the loop with the rebalanced tree, or goes on closer to the root. -/
theorem run_rbEraseColorTurn (h : EraseHead m root ctx t) :
    (∃ m', (rbEraseColorTurn t.root (above ctx) root).run m = pure (none, m') ∧
      Moved m m' root [] (eraseFix ctx t)) ∨
    ∃ m' ctx' t', (rbEraseColorTurn t.root (above ctx) root).run m =
        pure (some (t'.root, above ctx'), m') ∧
      Moved m m' root ctx' t' ∧ EraseHead m' root ctx' t' ∧ ctx'.length < ctx.length ∧
      t'.root = above ctx ∧ eraseFix ctx t = eraseFix ctx' t' := by
  obtain ⟨hat, ⟨p, n, ha, ht⟩, hne⟩ := h
  fun_cases eraseFix ctx t with
  | case1 t => exact absurd rfl hne
  | case2 f ctx t l s r hsib =>
    obtain ⟨d, c, x, sib⟩ := f
    obtain rfl : sib = .node .red l s r := hsib
    have hturn := run_rbEraseColorTurn_side hat (by simp)
    have hfill := at_fill.mp hat
    cases ha with
    | red hs => cases hs
    | black hs ha =>
      simp only [Frame.fill] at hfill
      rw [node_eq_branch d] at hs hfill
      obtain ⟨-, hnear, -⟩ := balanced_red_branch.mp (hs.color_eq ▸ hs)
      obtain ⟨m', hrun, hmoved⟩ := run_eraseSide_red hfill hnear.ne_nil
      exact .inl ⟨m', hturn.trans hrun, moved_plug.mp hmoved⟩
  | case3 f ctx t u hu hred =>
    obtain ⟨hs, hb⟩ := sibling_black ha hred
    have hspec := eraseRotate_spec f t
    rw [hu] at hspec
    obtain ⟨m', hrun, hmoved⟩ := run_eraseBlack_some (at_fill.mp hat) hspec
    exact .inl ⟨m', (run_rbEraseColorTurn_black hat hs hb).trans hrun, moved_plug.mp hmoved⟩
  | case4 f ctx t hnone hcol hred =>
    obtain ⟨hs, hb⟩ := sibling_black ha hred
    have hspec := eraseRotate_spec f t
    rw [hnone] at hspec
    obtain ⟨m', hrun, hmoved⟩ := run_eraseBlack_none (at_fill.mp hat) hs hspec
    rw [if_pos (.inl hcol)] at hrun
    exact .inl ⟨m', (run_rbEraseColorTurn_black hat hs hb).trans hrun, moved_plug.mp hmoved⟩
  | case5 f ctx t hnone hcol hred =>
    obtain ⟨hs, hb⟩ := sibling_black ha hred
    have hspec := eraseRotate_spec f t
    rw [hnone] at hspec
    obtain ⟨m', hrun, hmoved⟩ := run_eraseBlack_none (at_fill.mp hat) hs hspec
    rw [← run_rbEraseColorTurn_black hat hs hb] at hrun
    obtain ⟨d, c, x, sib⟩ := f
    cases ha with
    | red => exact absurd rfl hcol
    | black hsib ha =>
      obtain rfl := hsib.black_of_ne hred
      cases ctx with
      | nil => exact .inl ⟨m', by simpa using hrun, hmoved⟩
      | cons g ctx =>
        refine .inr ⟨m', g :: ctx, _, ?_, hmoved, ⟨hmoved.toAt,
          ⟨_, _, ha, flipSibling_balanced hnone hsib ht⟩, List.cons_ne_nil _ _⟩, ?_, root_branch, rfl⟩
        · rw [root_branch]
          simpa using hrun
        · simp

/-- The loop ends, at the latest at the root. -/
theorem run_rbEraseColorLoop (h : EraseHead m root ctx t) (hfuel : ctx.length ≤ fuel) :
    ∃ m', (rbEraseColorLoop root fuel t.root (above ctx)).run m = pure ((), m') ∧
      Moved m m' root [] (eraseFix ctx t) := by
  induction fuel generalizing m ctx t with
  | zero => exact absurd (List.length_eq_zero_iff.mp (Nat.le_zero.mp hfuel)) h.below
  | succ fuel ih =>
    rcases run_rbEraseColorTurn h with ⟨m', hrun, hmoved⟩ |
      ⟨m₁, ctx', t', hrun, hmoved, hhead, hlt, -, hfix⟩
    · exact ⟨m', run_rbEraseColorLoop_none hrun, hmoved⟩
    · obtain ⟨m', hrest, hmoved'⟩ := ih hhead (by omega)
      rw [hfix]
      exact ⟨m', (run_rbEraseColorLoop_some hrun).trans hrest,
        hmoved.trans hmoved' (toList_eraseFix ctx' t')⟩

end Loop
end CommonProject.RBTree

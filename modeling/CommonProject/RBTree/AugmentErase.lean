import CommonProject.RBTree.AugmentInsert

/-! The loop of `____rb_erase_color` with callbacks that maintain products. -/
namespace CommonProject.RBTree
open Foundations.RedBlack Foundations.RedBlack.ColorTree
variable {α W ρ V : Type} [Word α W] [DecidableEq α] [DecidableEq ρ] {val aug : α → V}
  {augment : AugmentCallbacks α W ρ (α → V)} {bound : Nat} {m : Memory α W ρ} {root : ρ}

section Turn
variable {d : Dir} {x y s : α} {a b t near far sib : ColorTree α} {ctx : List (Frame α)}
  {c cs cy : Color}

/-- Case 2 calls no callback. -/
private theorem exec_eraseBlack_flip (h : At m root ctx (branch d c x t (branch d cs s near far)))
    (hn : near.color = .black) (hf : far.color = .black) :
    exec (eraseBlackWith augment.rotate d (some x) (some s) root) aug m =
      exec (plain (eraseBlack d (some x) (some s) root)) aug m := by
  have hrep := h.rep
  simp only [rep_branch, root_branch] at hrep
  simp only [eraseBlackWith, eraseBlack, exec_bind, exec_plain, StateT.run_bind, bind_assoc,
    run_loadChild, hrep, pure_bind, run_isBlackOrNull hrep.2.2.2.2.2.2.2.2,
    run_isBlackOrNull hrep.2.2.2.2.2.2.2.1, hf, hn, beq_self_eq_true, if_true]

private theorem exec_eraseBlack_none (h : At m root ctx (branch d c x t sib)) (hs : sib ≠ .nil)
    (hr : EraseRotates d c x t sib none) :
    exec (eraseBlackWith augment.rotate d (some x) sib.root root) aug m =
      exec (plain (eraseBlack d (some x) sib.root root)) aug m := by
  cases hr with
  | flip hn hf =>
    rw [root_branch]
    exact exec_eraseBlack_flip h hn hf
  | leaf => exact absurd rfl hs

private theorem exec_eraseSide_black (h : At m root ctx (branch d c x t sib)) (hs : sib ≠ .nil)
    (hb : sib.color = .black) :
    exec (eraseSideWith augment.rotate d (some x) sib.root root) aug m =
      exec (eraseBlackWith augment.rotate d (some x) sib.root root) aug m := by
  cases sib with
  | nil => exact absurd rfl hs
  | node cs l s r =>
    have hw := (rep_branch.mp h.rep).2.2.2.2.1
    obtain rfl : cs = .black := hb
    simp [eraseSideWith, exec_plain, ColorTree.root, hw, Word.color_pack]

private theorem exec_rbEraseColorTurn_side (h : At m root (⟨d, c, x, sib⟩ :: ctx) t)
    (hs : sib ≠ .nil) : exec (rbEraseColorTurnWith augment.rotate t.root (some x) root) aug m =
      exec (eraseSideWith augment.rotate d (some x) sib.root root) aug m := by
  obtain ⟨-, hsib, -⟩ := h.repCtx
  have hlink := h.link
  rw [read_slot_cons] at hlink
  have hne : t.root ≠ sib.root := by
    intro heq
    cases sib with
    | nil => exact hs rfl
    | node cs l v r =>
      have hd := (nodup_plug.mp h.nodup).2.2
      exact hd (root_mem heq) (by simp [around, toList])
  cases d with
  | left =>
    have hr : m.rbRight x = sib.root := hsib
    simp only [rbEraseColorTurnWith, exec_bind, exec_plain, run_loadRight, pure_bind, hr, ne_eq, hne,
      not_false_eq_true, if_true]
  | right =>
    have hr : m.rbRight x = t.root := hlink
    have hl : m.rbLeft x = sib.root := hsib
    simp only [rbEraseColorTurnWith, exec_bind, exec_plain, run_loadRight, pure_bind, hr, ne_eq,
      not_true_eq_false, if_false, run_loadLeft, hl]

private theorem exec_rbEraseColorTurn_black {f : Frame α} (h : At m root (f :: ctx) t)
    (hs : f.sibling ≠ .nil) (hb : f.sibling.color = .black) :
    exec (rbEraseColorTurnWith augment.rotate t.root (above (f :: ctx)) root) aug m =
      exec (eraseBlackWith augment.rotate f.dir (some f.value) f.sibling.root root) aug m :=
  (exec_rbEraseColorTurn_side h hs).trans (exec_eraseSide_black (at_fill.mp h) hs hb)

variable [Monoid V]

private theorem exec_eraseCase1 (hcb : Maintains val augment bound)
    (h : At m root ctx (branch d c x t (branch d .red s near far))) (hn : near ≠ .nil)
    (hsum : Summed val aug (plug ctx (branch d c x t (branch d .red s near far)))) :
    ∃ aug' m', exec (eraseCase1With augment.rotate d (some x) (some s) root) aug m =
        pure ((near.root, aug'), m') ∧
      Summed val aug' (plug ctx (branch d c s (branch d .red x t (near.paint .black)) far)) := by
  have hnd := h.nodup
  have hrep := h.rep
  have hctx := h.repCtx
  have hlink := h.link
  simp only [nodup_plug, nodup_branch, disjoint_branch, disjoint_branch_right, mem_branch,
    not_or] at hnd
  simp only [rep_branch, root_branch] at hrep hlink
  refine ⟨?aug', ?m', ?run, ?sum⟩
  case run =>
    simp only [eraseCase1With, exec_bind, exec_plain, StateT.run_bind, run_loadChild, hrep, pure_bind,
      run_storeChild, run_rbSetParentColor_root hn, StateT.run_pure]
    rw [run_rbRotateSetParents ctx (c := c)]
    · simp only [pure_bind, hcb.rotate_eq]
      rfl
    all_goals simp [*]
  case sum =>
    simpa only [summed_plug, summed_branch, product_branch, product_paint, summed_paint] using
      summed_rotated_flip hsum h.nodup (by simp [*]) (by simp [*])

private theorem exec_eraseCase4 (hcb : Maintains val augment bound)
    (h : At m root ctx (branch d c x t (branch d cs s near far))) (hf : far ≠ .nil)
    (hsum : Summed val aug (plug ctx (branch d c x t (branch d cs s near far)))) :
    ∃ aug' m', exec (eraseCase4With augment.rotate d (some x) (some s) far.root root) aug m =
        pure ((none, aug'), m') ∧
      Summed val aug' (plug ctx (branch d c s (branch d .black x t near) (far.paint .black))) := by
  have hnd := h.nodup
  have hrep := h.rep
  have hctx := h.repCtx
  have hlink := h.link
  simp only [nodup_plug, nodup_branch, disjoint_branch, disjoint_branch_right, mem_branch,
    not_or] at hnd
  simp only [rep_branch, root_branch] at hrep hlink
  refine ⟨?aug', ?m', ?run, ?sum⟩
  case run =>
    simp only [eraseCase4With, exec_bind, exec_plain, StateT.run_bind, run_loadChild, hrep, pure_bind,
      run_storeChild, run_rbSetParentColor_root hf]
    rw [run_keep (p := some s) (by simp [*]), pure_bind, run_rbRotateSetParents ctx (c := c)]
    · simp only [pure_bind, hcb.rotate_eq]
      rfl
    all_goals simp [*]
  case sum =>
    simpa only [summed_plug, summed_branch, product_branch, product_paint, summed_paint] using
      summed_rotated_flip hsum h.nodup (by simp [*]) (by simp [*])

private theorem exec_eraseBlack_far (hcb : Maintains val augment bound)
    (h : At m root ctx (branch d c x t (branch d cs s near far))) (hf : far.color = .red)
    (hsum : Summed val aug (plug ctx (branch d c x t (branch d cs s near far)))) :
    ∃ aug' m', exec (eraseBlackWith augment.rotate d (some x) (some s) root) aug m =
        pure ((none, aug'), m') ∧
      Summed val aug' (plug ctx (branch d c s (branch d .black x t near) (far.paint .black))) := by
  obtain ⟨aug', m', hrun, hsum'⟩ := exec_eraseCase4 hcb h (ne_nil_of_red hf) hsum
  refine ⟨aug', m', ?_, hsum'⟩
  have hrep := h.rep
  simp only [rep_branch, root_branch] at hrep
  simp only [eraseBlackWith, exec_bind, exec_plain, run_loadChild, hrep, pure_bind,
    run_isBlackOrNull hrep.2.2.2.2.2.2.2.2, hf, beq_iff_eq, reduceCtorEq, if_false, hrun]

private theorem exec_eraseBlack_near (hcb : Maintains val augment bound)
    (h : At m root ctx (branch d c x t (branch d cs s (branch d .red y a b) far)))
    (hf : far.color = .black)
    (hsum : Summed val aug (plug ctx (branch d c x t (branch d cs s (branch d .red y a b) far)))) :
    ∃ aug' m', exec (eraseBlackWith augment.rotate d (some x) (some s) root) aug m =
        pure ((none, aug'), m') ∧
      Summed val aug' (plug ctx
        (branch d c y (branch d .black x t a) (branch d .black s (b.paint .black) far))) := by
  have hnd := h.nodup
  have hrep := h.rep
  have hctx := h.repCtx
  have hlink := h.link
  simp only [nodup_plug, nodup_branch, disjoint_branch, disjoint_branch_right, mem_branch,
    not_or] at hnd
  simp only [rep_branch, root_branch] at hrep hlink
  have ha : Rep m (some y) a := hrep.2.2.2.2.2.2.2.1.2.2.2.1
  refine ⟨?aug', ?m', ?run, ?sum⟩
  case run =>
    have hay : ((((m.setChild d s b.root).setChild d.flip y (some s)).setChild d.flip x
        (some y)).adopt b.root (some s) .black).child d y = a.root := by simp [*]
    simp only [eraseBlackWith, exec_bind, exec_plain, StateT.run_bind, run_loadChild, hrep, pure_bind,
      run_isBlackOrNull hrep.2.2.2.2.2.2.2.2, hf, beq_self_eq_true, if_true, beq_iff_eq,
      run_isBlackOrNull_some, Word.color_pack, reduceCtorEq, if_false, run_storeChild,
      run_adoptNode, hcb.rotate_eq, eraseCase4With, hay, run_rbSetParentColor]
    rw [run_keep (p := some y) (by simp [*]), pure_bind,
      run_rbRotateSetParents ctx (c := c)]
    · simp only [pure_bind]
      rfl
    all_goals simp [*]
  case sum =>
    simpa only [summed_plug, summed_branch, product_branch, product_paint, summed_paint] using
      summed_rotated₂_flip hsum h.nodup (by simp [*]) (by simp [*]) (by simp [*]) (by simp [*])

private theorem exec_eraseBlack_some {u : ColorTree α} (hcb : Maintains val augment bound)
    (h : At m root ctx (branch d c x t sib)) (hr : EraseRotates d c x t sib (some u))
    (hsum : Summed val aug (plug ctx (branch d c x t sib))) :
    ∃ aug' m', exec (eraseBlackWith augment.rotate d (some x) sib.root root) aug m =
        pure ((none, aug'), m') ∧ Summed val aug' (plug ctx u) := by
  cases hr with
  | far hf =>
    rw [root_branch]
    exact exec_eraseBlack_far hcb h hf hsum
  | near hf =>
    rw [root_branch]
    exact exec_eraseBlack_near hcb h hf hsum

private theorem exec_eraseSide_red (hcb : Maintains val augment bound)
    (h : At m root ctx (branch d c x t (branch d .red s near far))) (hn : near ≠ .nil)
    (hsum : Summed val aug (plug ctx (branch d c x t (branch d .red s near far)))) :
    ∃ aug' m', exec (eraseSideWith augment.rotate d (some x) (some s) root) aug m =
        pure ((none, aug'), m') ∧
      Summed val aug' (plug ctx (branch d c s ((eraseRotate ⟨d, .red, x, near.paint .black⟩ t).getD
        (branch d .black x t ((near.paint .black).paint .red))) far)) := by
  obtain ⟨m₁, hplain, hmoved⟩ := run_eraseCase1 h hn
  obtain ⟨aug₁, m₂, hcase1, hsum₁⟩ := exec_eraseCase1 hcb h hn hsum
  obtain ⟨-, rfl⟩ := (erases_eraseCase1 hcb.rotate ..).outcome_eq hcase1 hplain
  have hs := (rep_branch.mp (rep_branch.mp h.rep).2.2.2.2).1
  have hrun : exec (eraseSideWith augment.rotate d (some x) (some s) root) aug m =
      exec (eraseBlackWith augment.rotate d (some x) (near.paint .black).root root) aug₁ m₂ := by
    simp [eraseSideWith, exec_plain, hs, Word.color_pack, hcase1]
  have hat := at_fill (f := ⟨d, c, s, far⟩) |>.mpr hmoved.toAt
  have hn' : near.paint .black ≠ .nil := by
    rwa [ne_eq, ← root_eq_none, root_paint, root_eq_none]
  have hspec := eraseRotate_spec ⟨d, .red, x, near.paint .black⟩ t
  rw [hrun]
  cases hr : eraseRotate ⟨d, .red, x, near.paint .black⟩ t with
  | some u =>
    rw [hr] at hspec
    have hblack := exec_eraseBlack_some hcb hat hspec hsum₁
    exact hblack
  | none =>
    rw [hr] at hspec
    obtain ⟨m', hblack, -⟩ := run_eraseBlack_none hat hn' hspec
    refine ⟨aug₁, m', ?_, ?_⟩
    · rw [exec_eraseBlack_none hat hn' hspec]
      exact exec_plain_of (by simpa using hblack)
    · simpa only [Option.getD_none, summed_plug, summed_branch, product_branch, product_paint,
        summed_paint] using hsum₁

omit [DecidableEq α] in
private theorem summed_flipSibling {f : Frame α} (h : Summed val aug (plug (f :: ctx) t)) :
    Summed val aug (plug ctx ((f.flipSibling .black).fill t)) := by
  simpa only [plug, Frame.fill, Frame.flipSibling, summed_plug, summed_branch, product_branch,
    product_paint, summed_paint] using h

/-- A turn ends the loop with the products of the rebalanced tree, or flips a colour. -/
private theorem exec_rbEraseColorTurn (hcb : Maintains val augment bound)
    (h : EraseHead m root ctx t) (hsum : Summed val aug (plug ctx t)) :
    (∃ aug' m', exec (rbEraseColorTurnWith augment.rotate t.root (above ctx) root) aug m =
        pure ((none, aug'), m') ∧ Summed val aug' (eraseFix ctx t)) ∨
    ∃ m' ctx' t', exec (rbEraseColorTurnWith augment.rotate t.root (above ctx) root) aug m =
        pure ((some (t'.root, above ctx'), aug), m') ∧
      EraseHead m' root ctx' t' ∧ Summed val aug (plug ctx' t') ∧ ctx'.length < ctx.length ∧
      eraseFix ctx t = eraseFix ctx' t' := by
  obtain ⟨hat, ⟨p, n, ha, ht⟩, hne⟩ := h
  fun_cases eraseFix ctx t with
  | case1 t => exact absurd rfl hne
  | case2 f ctx t l s r hsib =>
    obtain ⟨d, c, x, sib⟩ := f
    obtain rfl : sib = .node .red l s r := hsib
    have hfill := at_fill.mp hat
    cases ha with
    | red hs => cases hs
    | black hs ha =>
      simp only [plug, Frame.fill] at hfill hsum
      rw [node_eq_branch d] at hs hfill hsum
      obtain ⟨-, hnear, -⟩ := balanced_red_branch.mp (hs.color_eq ▸ hs)
      obtain ⟨aug', m', hrun, hsum'⟩ := exec_eraseSide_red hcb hfill hnear.ne_nil hsum
      exact .inl ⟨aug', m', (exec_rbEraseColorTurn_side hat (by simp)).trans hrun, hsum'⟩
  | case3 f ctx t u hu hred =>
    obtain ⟨hs, hb⟩ := sibling_black ha hred
    have hspec := eraseRotate_spec f t
    rw [hu] at hspec
    obtain ⟨aug', m', hrun, hsum'⟩ := exec_eraseBlack_some hcb (at_fill.mp hat) hspec hsum
    exact .inl ⟨aug', m', (exec_rbEraseColorTurn_black hat hs hb).trans hrun, hsum'⟩
  | case4 f ctx t hnone hcol hred =>
    obtain ⟨hs, hb⟩ := sibling_black ha hred
    have hspec := eraseRotate_spec f t
    rw [hnone] at hspec
    obtain ⟨m', hrun, -⟩ := run_eraseBlack_none (at_fill.mp hat) hs hspec
    rw [if_pos (.inl hcol)] at hrun
    refine .inl ⟨aug, m', ?_, summed_flipSibling hsum⟩
    rw [exec_rbEraseColorTurn_black hat hs hb, exec_eraseBlack_none (at_fill.mp hat) hs hspec]
    exact exec_plain_of hrun
  | case5 f ctx t hnone hcol hred =>
    obtain ⟨hs, hb⟩ := sibling_black ha hred
    have hspec := eraseRotate_spec f t
    rw [hnone] at hspec
    obtain ⟨m', hrun, hmoved⟩ := run_eraseBlack_none (at_fill.mp hat) hs hspec
    have hexec : exec (rbEraseColorTurnWith augment.rotate t.root (above (f :: ctx)) root) aug m = _ :=
      (exec_rbEraseColorTurn_black hat hs hb).trans
        ((exec_eraseBlack_none (at_fill.mp hat) hs hspec).trans (exec_plain_of hrun))
    have hsum' := summed_flipSibling hsum
    obtain ⟨d, c, x, sib⟩ := f
    cases ha with
    | red => exact absurd rfl hcol
    | black hsib ha =>
      obtain rfl := hsib.black_of_ne hred
      cases ctx with
      | nil => exact .inl ⟨aug, m', by simpa using hexec, hsum'⟩
      | cons g ctx =>
        refine .inr ⟨m', g :: ctx, _, ?_, ⟨hmoved.toAt,
          ⟨_, _, ha, flipSibling_balanced hnone hsib ht⟩, List.cons_ne_nil _ _⟩, hsum', ?_, rfl⟩
        · rw [root_branch]
          simpa using hexec
        · simp

end Turn

section Loop
variable [Monoid V] {t : ColorTree α} {ctx : List (Frame α)} {fuel : Nat}

theorem exec_rbEraseColorLoop (hcb : Maintains val augment bound) (h : EraseHead m root ctx t)
    (hsum : Summed val aug (plug ctx t)) (hfuel : ctx.length ≤ fuel) :
    ∃ aug' m', exec (rbEraseColorLoopWith augment.rotate root fuel t.root (above ctx)) aug m =
        pure (((), aug'), m') ∧ Summed val aug' (eraseFix ctx t) := by
  induction fuel generalizing m ctx t with
  | zero => exact absurd (List.length_eq_zero_iff.mp (Nat.le_zero.mp hfuel)) h.below
  | succ fuel ih =>
    rcases exec_rbEraseColorTurn hcb h hsum with
      ⟨aug', m', hrun, hsum'⟩ | ⟨m₁, ctx', t', hrun, hhead, hsum', hlt, hfix⟩
    · refine ⟨aug', m', ?_, hsum'⟩
      rw [rbEraseColorLoopWith_succ, exec_bind, hrun]
      rfl
    · obtain ⟨aug', m', hrest, hsum''⟩ := ih hhead hsum' (by omega)
      refine ⟨aug', m', ?_, hfix ▸ hsum''⟩
      rw [rbEraseColorLoopWith_succ, exec_bind, hrun]
      exact hrest

end Loop
end CommonProject.RBTree

import CommonProject.RBTree.AugmentErase

/-! `__rb_erase_augmented` with callbacks that maintain products. -/
namespace CommonProject.RBTree
open Foundations.RedBlack Foundations.RedBlack.ColorTree
variable {α W ρ V : Type} [Word α W]

section Climb
variable {m m' : Memory α W ρ} {root : ρ} {p stop : Option α} {f : Frame α}
  {path ctx up : List (Frame α)} {t : ColorTree α} {val aug aug' : α → V} {v : V}

private theorem upTo_none : upTo none ctx = above ctx := by cases ctx <;> rfl

private theorem upTo_append :
    upTo (some f.value) path = above (path ++ f :: ctx) := by cases path <;> rfl

private theorem upTo_eq {q : α} (h : above path = some q) : upTo stop path = some q := by
  cases path with
  | nil => cases h
  | cons f path => exact h

private theorem RepCtx.climb_none (h : RepCtx m root ctx) (hp : m.read (slot root ctx) = p) :
    Climb m none p ctx := by
  induction ctx generalizing p with
  | nil => trivial
  | cons f ctx ih =>
    obtain ⟨hw, hs, -, hctx, hl⟩ := h
    rw [read_slot_cons] at hp
    exact ⟨hp, hs, by rw [hw, Word.parent_pack, upTo_none], ih hctx hl⟩

/-- The way up within a tree stops at the parent of the tree. -/
private theorem RepCtx.climb (h : RepCtx m root (path ++ f :: ctx))
    (hp : m.read (slot root (path ++ f :: ctx)) = p) : Climb m (some f.value) p path := by
  induction path generalizing p with
  | nil => trivial
  | cons g path ih =>
    obtain ⟨hw, hs, -, hctx, hl⟩ := h
    rw [List.cons_append, read_slot_cons] at hp
    refine ⟨hp, hs, ?_, ih hctx hl⟩
    rw [hw, Word.parent_pack]
    exact upTo_append.symm

private theorem Climb.of_sameAt (h : Climb m' stop p up) (hsame : ∀ x ∈ around up, SameAt m m' x) :
    Climb m stop p up := by
  induction up generalizing p with
  | nil => trivial
  | cons f up ih =>
    obtain ⟨hp, hs, hw, hup⟩ := h
    have hf := hsame f.value (by simp [around])
    refine ⟨by rw [← hf.child, hp], by rw [← hf.child, hs], by rw [← hf.1, hw], ih hup fun x hx => ?_⟩
    exact hsame x (by simp [around, hx])

variable [Monoid V] [DecidableEq α] {augment : AugmentCallbacks α W ρ (α → V)} {bound : Nat}

/-- From a place to the root. -/
theorem exec_propagate (hcb : Maintains val augment bound) (h : At m root ctx t)
    (hlen : ctx.length ≤ bound) (ht : Summed val aug t) (hstale : Stale val aug ctx) :
    ∃ aug', exec (augment.propagate (above ctx) none) aug m = pure (((), aug'), m) ∧
      Summed val aug' (plug ctx t) := by
  obtain ⟨-, hnd, hdisj⟩ := nodup_plug.mp h.nodup
  obtain ⟨aug', hrun, hout, hsum⟩ := hcb.propagate_eq hlen (h.repCtx.climb_none h.link) hnd
    (fun x hx => ⟨fun hr => hdisj (root_mem hr) hx, nofun⟩) hstale
  rw [upTo_none] at hrun
  have ht' : Summed val aug' t := (summed_congr fun x hx => hout x fun hx' => hdisj hx hx').mpr ht
  refine ⟨aug', hrun, summed_plug.mpr ⟨ht', ?_⟩⟩
  rwa [ht.augOf_root] at hsum

end Climb

section Splice
variable [DecidableEq α] [DecidableEq ρ] {val aug : α → V} {augment : AugmentCallbacks α W ρ (α → V)}
  {bound fuel : Nat} {m : Memory α W ρ} {root : ρ} {x y s : α} {l r child : ColorTree α}
  {ctx path : List (Frame α)} {c cs : Color}

/-- Case 1: the call is the last step. -/
private theorem exec_erase_case1_eq (fuel : Nat) (h : At m root ctx (.node c .nil x r)) :
    exec (rbEraseAugmentedWith augment fuel (some x) root) aug m =
      (rbEraseAugmented fuel (some x) root).run m >>= fun b =>
        exec (augment.propagate (above ctx) none) aug b.2 >>= fun u => pure ((b.1, u.1.2), u.2) := by
  obtain ⟨hw, hl, hr, -⟩ := h.rep
  rw [root_nil] at hl
  simp only [rbEraseAugmentedWith, rbEraseAugmented, exec_bind, exec_plain, StateT.run_bind, bind_assoc,
    run_loadRight, run_loadLeft, pure_bind, hl, hr, Option.isNone_none, if_true, run_loadParentColor, hw,
    Word.parent_pack, exec_pure]

private theorem exec_erase_case1_left_eq (h : At m root ctx (.node c l x .nil)) (hne : l ≠ .nil) :
    exec (rbEraseAugmentedWith augment fuel (some x) root) aug m =
      (rbEraseAugmented fuel (some x) root).run m >>= fun b =>
        exec (augment.propagate (above ctx) none) aug b.2 >>= fun u => pure ((b.1, u.1.2), u.2) := by
  obtain ⟨hw, hl, hr, -⟩ := h.rep
  rw [root_nil] at hr
  obtain ⟨v, hv⟩ := Option.ne_none_iff_exists'.mp (mt root_eq_none.mp hne)
  rw [hv] at hl
  simp only [rbEraseAugmentedWith, rbEraseAugmented, exec_bind, exec_plain, StateT.run_bind, bind_assoc,
    run_loadRight, run_loadLeft, pure_bind, hl, hr, Option.isNone_none, Option.isNone_some,
    Bool.false_eq_true, if_false, if_true, run_loadParentColor, hw, Word.parent_pack, exec_pure,
    StateT.run_pure]

/-- Cases 2 and 3: the successor is found, takes the place, and is the start of the last call. -/
private theorem exec_erase_both_eq (hl : m.rbLeft x ≠ none) (hr : m.rbRight x = some y) :
    exec (rbEraseAugmentedWith augment fuel (some x) root) aug m =
      exec (findSuccessorWith augment fuel (some x) (some y) (m.rbLeft y)) aug m >>= fun f =>
        (takePlace (some x) f.1.1.1 f.1.1.2.1 f.1.1.2.2 root).run f.2 >>= fun b =>
          exec (augment.propagate f.1.1.2.1 none) f.1.2 b.2 >>= fun u => pure ((b.1, u.1.2), u.2) := by
  obtain ⟨v, hv⟩ := Option.ne_none_iff_exists'.mp hl
  simp only [rbEraseAugmentedWith, exec_bind, exec_plain, bind_assoc,
    run_loadRight, run_loadLeft, pure_bind, hv, hr, Option.isNone_some, Bool.false_eq_true, if_false,
    exec_pure]

omit [DecidableEq ρ] in
private theorem findSuccessorWith_none (node child : Option α) :
    findSuccessorWith augment fuel node child none = (plain (findSuccessor fuel child none) >>=
      fun f => augment.copy node f.2.1 >>= fun _ => pure f : AugProg α W ρ (α → V) _) := by
  simp only [findSuccessorWith, findSuccessor, Option.isNone_none, if_true, plain_bind, plain_pure,
    bind_assoc, pure_bind]

omit [DecidableEq ρ] in
theorem findSuccessorWith_some (node child : Option α) (v : α) :
    findSuccessorWith augment fuel node child (some v) = (plain (findSuccessor fuel child (some v)) >>=
      fun f => augment.copy node f.2.1 >>= fun _ => augment.propagate f.1 f.2.1 >>= fun _ => pure f :
        AugProg α W ρ (α → V) _) := rfl

omit [DecidableEq ρ] in
/-- The way down to the successor, which then links the right child of the node. -/
private theorem run_findSuccessor_down {rl rr : ColorTree α} {cr : Color} {q : α}
    (h : At m root ctx (.node c l x (.node cr rl y rr))) (hrl : rl ≠ .nil)
    (hfirst : firstOf cr rl y rr [] = (path, cs, s, child)) (hfuel : path.length ≤ fuel)
    (hq : above path = some q)
    (hs : Successor m root ctx c l x (.node cr rl y rr) q cs s child (plug path (child.paint .black))) :
    (findSuccessor fuel (some y) (m.rbLeft y)).run m =
      pure ((some q, some s, child.root), ((m.setChild .left q child.root).setChild
        (Dir.flip .left) s (some y)).adopt (some y) (some s) cr) := by
  obtain ⟨-, -, -, -, hw, hyl, -, hrepl, -⟩ := h.rep
  rw [hyl]
  cases rl with
  | nil => exact absurd rfl hrl
  | node cl ll v rl =>
    have hbelow : firstOf cl ll v rl [⟨.left, cr, y, rr⟩] = (path, cs, s, child) := by
      rwa [firstOf] at hfirst
    obtain ⟨k, rfl⟩ : ∃ k, fuel = k + 1 := Nat.exists_eq_add_one_of_ne_zero
      (Nat.ne_zero_of_lt (Nat.lt_of_lt_of_le (length_firstOf hbelow) hfuel))
    have hloop : (successorLoop (k + 1) (some y) (some v)).run m =
        (pure ((above path, some s), m) : Except Fault _) :=
      run_successorLoop hbelow hrepl hfuel
    have hstore := run_storeChild m .left q child.root
    have hstore' := run_storeChild (m.setChild .left q child.root) (Dir.flip .left) s (some y)
    have hword : (((m.setChild .left q child.root).setChild (Dir.flip .left) s
      (some y)).rbParentColor y) = Word.pack (some x) cr := by simp [*]
    simp only [storeChild, Dir.flip] at hstore hstore' hword
    simp only [findSuccessor, root_node, Option.isNone_some, Bool.false_eq_true, if_false,
      StateT.run_bind, hloop, pure_bind, run_loadRight, hs.rbRight_eq, hq, hstore, hstore',
      run_rbSetParent, hword, Word.color_pack]
    rfl

/-- From the old place of the successor `s`, the parents lead up to `s` itself. -/
private theorem climb_successor {q : α} {cr : Color} (h : At m root ctx (.node c l x r))
    (hs : Successor m root ctx c l x r q cs s child (plug path (child.paint .black)))
    (hy : r.root = some y) (hcr : r.color = cr) :
    Climb (((m.setChild .left q child.root).setChild (Dir.flip .left) s (some y)).adopt (some y)
      (some s) cr) (some s) child.root path := by
  have hmoved := successor_moved h hs hy
  have hat := at_append.mpr ((at_fill (f := ⟨.right, c, s, l⟩)).mpr hmoved.toAt)
  have hclimb := hat.repCtx.climb hat.link
  rw [root_paint] at hclimb
  refine hclimb.of_sameAt fun z hz => ?_
  have hnd : (plug ctx (branch .left c s l (plug path (child.paint .black)))).toList.Nodup :=
    hmoved.nodup
  simp only [nodup_plug, nodup_branch, disjoint_branch, mem_plug, toList_paint, not_or] at hnd
  have hzs : z ≠ s := fun hzs => hnd.1.2.1.2 (hzs ▸ hz)
  have hzc : z ∉ child.toList := fun hzc => hnd.1.2.2.2.1.2.2 hzc hz
  have hzl : z ∉ l.toList := fun hzl => hnd.1.2.2.2.2 hzl (mem_plug.mpr (.inr hz))
  have hzctx : z ∉ around ctx := fun hzc => hnd.2.2.2.2 (mem_plug.mpr (.inr hz)) hzc
  simp [*]

variable [Monoid V]

private theorem exec_erase_case1 (hcb : Maintains val augment bound) (fuel : Nat)
    (h : At m root ctx (.node c .nil x r)) (hlen : ctx.length ≤ bound)
    (hsum : Summed val aug (plug ctx (.node c .nil x r))) :
    ∃ b aug' m', exec (rbEraseAugmentedWith augment fuel (some x) root) aug m =
        pure ((b, aug'), m') ∧ Summed val aug' (plug ctx (r.paint c)) := by
  obtain ⟨⟨-, -, hr⟩, hctx⟩ := summed_plug.mp hsum
  obtain ⟨m', hplain, hmoved⟩ := run_erase_case1 fuel h
  obtain ⟨aug', hprop, hsum'⟩ := exec_propagate hcb hmoved.toAt hlen (summed_paint.mpr hr) hctx.stale
  refine ⟨?b, aug', m', ?run, hsum'⟩
  case run => rw [exec_erase_case1_eq fuel h, hplain, pure_bind, hprop, pure_bind]

private theorem exec_erase_case1_left (hcb : Maintains val augment bound)
    (h : At m root ctx (.node c l x .nil)) (hne : l ≠ .nil) (hlen : ctx.length ≤ bound)
    (hsum : Summed val aug (plug ctx (.node c l x .nil))) :
    ∃ b aug' m', exec (rbEraseAugmentedWith augment fuel (some x) root) aug m =
        pure ((b, aug'), m') ∧ Summed val aug' (plug ctx (l.paint c)) := by
  obtain ⟨⟨-, hl, -⟩, hctx⟩ := summed_plug.mp hsum
  obtain ⟨m', hplain, hmoved⟩ : ∃ m', (rbEraseAugmented fuel (some x) root).run m = pure (none, m') ∧
      Moved m m' root ctx (l.paint c) := run_erase_case1_left h hne
  obtain ⟨aug', hprop, hsum'⟩ := exec_propagate hcb hmoved.toAt hlen (summed_paint.mpr hl) hctx.stale
  refine ⟨?b, aug', m', ?run, hsum'⟩
  case run => rw [exec_erase_case1_left_eq h hne, hplain, pure_bind, hprop, pure_bind]

omit [Word α W] [DecidableEq ρ] [DecidableEq α] in
/-- The successor `s` that holds what `x` held has to be looked at again, and no other node. -/
private theorem stale_successor {aug' : α → V} (h : Summed val aug (plug ctx (.node c l x r)))
    (hs : aug' s = aug x) (hl : ∀ z ∈ l.toList, aug' z = aug z)
    (hctx : ∀ z ∈ around ctx, aug' z = aug z) : Stale val aug' (⟨.right, c, s, l⟩ :: ctx) := by
  obtain ⟨⟨hx, hl', -⟩, hctx'⟩ := summed_plug.mp h
  refine ⟨(summed_congr hl).mpr hl', (summedAround_congr hctx).mpr ?_⟩
  rwa [hs, hx]

private theorem exec_erase_case2 {cr : Color} (hcb : Maintains val augment bound) (fuel : Nat)
    (h : At m root ctx (.node c l x (.node cr .nil y r))) (hne : l ≠ .nil)
    (hlen : ctx.length < bound)
    (hsum : Summed val aug (plug ctx (.node c l x (.node cr .nil y r)))) :
    ∃ b aug' m', exec (rbEraseAugmentedWith augment fuel (some x) root) aug m =
        pure ((b, aug'), m') ∧ Summed val aug' (plug ctx (.node c l y (r.paint .black))) := by
  obtain ⟨m', hplain, hmoved⟩ := run_erase_case2 fuel h hne
  generalize (if r.root.isNone ∧ cr = .black then some y else none) = b at hplain
  have hnd : (plug ctx (branch .left c x l (branch .left cr y .nil r))).toList.Nodup := h.nodup
  simp only [nodup_plug, nodup_branch, disjoint_branch, disjoint_branch_right] at hnd
  obtain ⟨-, hl, hr, -, -, hyl, hyr, -⟩ := h.rep
  have hl' : m.rbLeft x ≠ none := by rwa [hl, ne_eq, root_eq_none]
  have hfind : (findSuccessor fuel (some y) none).run m =
      (pure ((some y, some y, r.root), m) : Except Fault _) := by simp [findSuccessor, hyr]
  rw [run_rbEraseAugmented_both hl' hr, hyl, root_nil, StateT.run_bind, hfind, pure_bind] at hplain
  have hr' : Summed val (Function.update aug y (aug x)) (r.paint .black) := by
    rw [summed_paint, summed_update (by tauto)]
    exact (summed_plug.mp hsum).1.2.2.2.2
  have hstale : Stale val (Function.update aug y (aug x)) (⟨.right, c, y, l⟩ :: ctx) := by
    refine stale_successor hsum (Function.update_self ..) ?_ ?_ <;>
      exact fun z hz => Function.update_of_ne (ne_of_mem_of_not_mem hz (by tauto)) ..
  obtain ⟨aug', hprop, hsum'⟩ := exec_propagate (t := r.paint .black) hcb (at_fill.mpr hmoved.toAt)
    hlen hr' hstale
  refine ⟨b, aug', m', ?_, hsum'⟩
  rw [above_cons] at hprop
  simp only [exec_erase_both_eq hl' hr, hyl, root_nil, findSuccessorWith_none, exec_bind, exec_plain,
    hfind, pure_bind, hcb.copy_eq, exec_pure, hplain, hprop]

/-- The successor takes over the data of the node, and the way up from its old place is brought up to
date, without the successor. -/
private theorem exec_findSuccessor_down {rl rr : ColorTree α} {cr : Color} {q : α}
    (hcb : Maintains val augment bound) (h : At m root ctx (.node c l x (.node cr rl y rr)))
    (hrl : rl ≠ .nil) (hfirst : firstOf cr rl y rr [] = (path, cs, s, child))
    (hfuel : path.length ≤ fuel) (hlen : path.length ≤ bound) (hq : above path = some q)
    (hs : Successor m root ctx c l x (.node cr rl y rr) q cs s child (plug path (child.paint .black)))
    (hsum : Summed val aug (.node cr rl y rr)) :
    ∃ aug' m', (findSuccessor fuel (some y) (m.rbLeft y)).run m =
        pure ((some q, some s, child.root), m') ∧
      exec (findSuccessorWith augment fuel (some x) (some y) (m.rbLeft y)) aug m =
        pure (((some q, some s, child.root), aug'), m') ∧
      Summed val aug' (plug path (child.paint .black)) ∧ aug' s = aug x ∧
      ∀ z, z ≠ s → z ∉ (plug path (child.paint .black)).toList → aug' z = aug z := by
  have hfind := run_findSuccessor_down h hrl hfirst hfuel hq hs
  have hcolor : (node cr rl y rr).color = cr := rfl
  have hclimb := climb_successor h hs rfl hcolor
  have hplug := plug_firstOf hfirst
  rw [plug] at hplug
  rw [← hplug] at hsum
  obtain ⟨⟨-, -, hchild⟩, hpath⟩ := summed_plug.mp hsum
  have hnd : (plug path (branch .left cs s .nil child)).toList.Nodup := by
    change (plug path (.node cs .nil s child)).toList.Nodup
    rw [hplug]
    exact (nodup_plug.mp ((at_fill (f := ⟨.right, c, x, l⟩)).mpr h).nodup).1
  simp only [nodup_plug, nodup_branch, disjoint_branch] at hnd
  have hout : ∀ z, z ≠ s → Function.update aug s (aug x) z = aug z := fun z hz =>
    Function.update_of_ne hz ..
  have hchild' : Summed val (Function.update aug s (aug x)) child := by
    rwa [summed_update (by tauto)]
  have hne : ∀ z ∈ around path, z ≠ s := fun z hz => ne_of_mem_of_not_mem hz hnd.2.2.1
  obtain ⟨aug', hprop, hsame, haround⟩ := hcb.propagate_eq hlen hclimb hnd.2.1
    (fun z hz => ⟨fun hr => hnd.2.2.2.2 (root_mem hr) hz, fun hsz => hne z hz (Option.some.inj hsz).symm⟩)
    ((stale_congr fun z hz => hout z (hne z hz)).mpr hpath.stale)
  rw [upTo_eq hq] at hprop
  rw [hchild'.augOf_root] at haround
  refine ⟨aug', _, hfind, ?_, ?_, ?_, ?_⟩
  · obtain ⟨-, -, -, -, -, hyl, -⟩ := h.rep
    obtain ⟨v, hv⟩ := Option.ne_none_iff_exists'.mp (mt root_eq_none.mp hrl)
    rw [hyl, hv] at hfind ⊢
    simp only [findSuccessorWith_some, exec_bind, exec_plain, hfind, pure_bind, hcb.copy_eq, hprop,
      exec_pure]
  · refine summed_plug.mpr ⟨?_, by rwa [product_paint]⟩
    rw [summed_paint, summed_congr fun z hz => hsame z fun hz' => hnd.2.2.2.2 hz hz']
    exact hchild'
  · rw [hsame s hnd.2.2.1, Function.update_self]
  · intro z hz hzr
    rw [mem_plug, not_or] at hzr
    rw [hsame z hzr.2, hout z hz]

private theorem exec_erase_case3 {rl rr : ColorTree α} {cr : Color}
    (hcb : Maintains val augment bound)
    (h : At m root ctx (.node c l x (.node cr rl y rr))) (hne : l ≠ .nil) (hrl : rl ≠ .nil)
    (hfirst : firstOf cr rl y rr [] = (path, cs, s, child)) (hfuel : path.length ≤ fuel)
    (hpath : path.length ≤ bound) (hctx : ctx.length < bound)
    (hsum : Summed val aug (plug ctx (.node c l x (.node cr rl y rr)))) :
    ∃ b aug' m', exec (rbEraseAugmentedWith augment fuel (some x) root) aug m =
        pure ((b, aug'), m') ∧
      Summed val aug' (plug ctx (.node c l s (plug path (child.paint .black)))) := by
  obtain ⟨q, hq, hs⟩ := successor_firstOf h hrl hfirst
  obtain ⟨m', hplain, hmoved⟩ := run_erase_case3 h hne hrl hfirst hfuel
  generalize (if child.root.isNone ∧ cs = .black then above path else none) = b at hplain
  obtain ⟨aug₁, m₁, hfind, hexec, hright, hcopy, hout⟩ := exec_findSuccessor_down hcb h hrl hfirst hfuel
    hpath hq hs (summed_plug.mp hsum).1.2.2
  obtain ⟨-, hl, hr, -⟩ := h.rep
  have hl' : m.rbLeft x ≠ none := by rwa [hl, ne_eq, root_eq_none]
  rw [run_rbEraseAugmented_both hl' hr, StateT.run_bind, hfind, pure_bind] at hplain
  have hnd : (plug ctx (branch .left c s l (plug path (child.paint .black)))).toList.Nodup :=
    hmoved.nodup
  simp only [nodup_plug, nodup_branch, disjoint_branch] at hnd
  have hstale : Stale val aug₁ (⟨.right, c, s, l⟩ :: ctx) := by
    refine stale_successor hsum hcopy ?_ ?_
    · exact fun z hz => hout z (ne_of_mem_of_not_mem hz hnd.1.1) fun hz' => hnd.1.2.2.2.2 hz hz'
    · exact fun z hz => hout z (ne_of_mem_of_not_mem hz hnd.2.2.1) fun hz' => hnd.2.2.2.2 hz' hz
  obtain ⟨aug', hprop, hsum'⟩ := exec_propagate (t := plug path (child.paint .black)) hcb
    (at_fill.mpr hmoved.toAt) hctx hright hstale
  refine ⟨b, aug', m', ?_, hsum'⟩
  rw [above_cons] at hprop
  simp only [exec_erase_both_eq hl' hr, hexec, pure_bind, hplain, hprop]

/-- `__rb_erase_augmented` leaves all products right. -/
theorem exec_rbEraseAugmented (hcb : Maintains val augment bound) (h : At m root ctx (.node c l x r))
    (hfuel : (splice ctx c l r).1.length ≤ fuel) (hlen : (splice ctx c l r).1.length ≤ bound)
    (hsum : Summed val aug (plug ctx (.node c l x r))) :
    ∃ b aug' m', exec (rbEraseAugmentedWith augment fuel (some x) root) aug m =
        pure ((b, aug'), m') ∧
      Summed val aug' (plug (splice ctx c l r).1 (splice ctx c l r).2.1) := by
  revert h hfuel hlen hsum
  fun_cases splice ctx c l r with
  | case1 => exact fun h _ hlen hsum => exec_erase_case1 hcb fuel h hlen hsum
  | case2 r hne => exact fun h _ hlen hsum => exec_erase_case1 hcb fuel h hlen hsum
  | case3 l hne => exact fun h _ hlen hsum => exec_erase_case1_left hcb h hne hlen hsum
  | case4 l cr rl y rr hne path cs s child hfirst =>
    intro h hfuel hlen hsum
    rw [List.length_append, List.length_cons] at hfuel hlen
    rw [plug_append]
    cases rl with
    | nil =>
      cases hfirst
      exact exec_erase_case2 hcb fuel h hne (by omega) hsum
    | node cl a v b =>
      exact exec_erase_case3 hcb h hne (by simp) hfirst (by omega) (by omega) (by omega) hsum

end Splice
end CommonProject.RBTree

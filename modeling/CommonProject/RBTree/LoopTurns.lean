import CommonProject.Foundations.TraversalCost
import CommonProject.RBTree.Client
import CommonProject.RBTree.Postorder

/-! How many turns the loops make: few in each call, and two for each node in a whole walk. -/
namespace CommonProject.RBTree
open Foundations Foundations.RedBlack Foundations.RedBlack.ColorTree
variable {α W ρ β : Type}

/-- The program comes to an end, and no loop of it makes more than `k` turns. -/
def EndsWithin (k : Nat) (p : Nat → Prog α W ρ β) (m : Memory α W ρ) : Prop :=
  ∃ r, ∀ fuel, k ≤ fuel → (p fuel).run m = .ok r

/-- The one loop of the program makes exactly `k` turns, and leaves the memory as it is. -/
def Takes (k : Nat) (p : Nat → Prog α W ρ β) (m : Memory α W ρ) (r : β) : Prop :=
  ∀ fuel, (p fuel).run m = if k ≤ fuel then .ok (r, m) else .error .outOfFuel

section Programs
variable {p : Nat → Prog α W ρ β} {m : Memory α W ρ} {r r' : β} {k k' : Nat}

private theorem Settled.endsWithin {r : β × Memory α W ρ} (h : Settled p)
    (hr : (p k).run m = .ok r) : EndsWithin k p m := ⟨r, fun _ hk => h.stable hk hr⟩

private theorem EndsWithin.mono (h : EndsWithin k p m) (hk : k ≤ k') : EndsWithin k' p m := by
  obtain ⟨r, h⟩ := h
  exact ⟨r, fun fuel hfuel => h fuel (hk.trans hfuel)⟩

/-- One turn more. -/
private theorem EndsWithin.turn {q : Nat → Prog α W ρ β} (h : EndsWithin k q m)
    (hsucc : ∀ fuel, (p (fuel + 1)).run m = (q fuel).run m) : EndsWithin (k + 1) p m := by
  obtain ⟨r, h⟩ := h
  refine ⟨r, fun fuel hk => ?_⟩
  obtain ⟨fuel, rfl⟩ := Nat.exists_eq_add_one_of_ne_zero (Nat.ne_zero_of_lt hk)
  rw [hsucc]
  exact h fuel (Nat.le_of_succ_le_succ hk)

private theorem EndsWithin.last {r : β × Memory α W ρ}
    (hsucc : ∀ fuel, (p (fuel + 1)).run m = .ok r) : EndsWithin 1 p m := by
  refine ⟨r, fun fuel hk => ?_⟩
  obtain ⟨fuel, rfl⟩ := Nat.exists_eq_add_one_of_ne_zero (Nat.ne_zero_of_lt hk)
  exact hsucc fuel

private theorem Takes.endsWithin (h : Takes k p m r) : EndsWithin k p m :=
  ⟨(r, m), fun fuel hk => (h fuel).trans (if_pos hk)⟩

/-- A program makes one number of turns only. -/
private theorem Takes.unique (h : Takes k p m r) (h' : Takes k' p m r') : k = k' := by
  have hle : ∀ {k k' : Nat} {r r' : β}, Takes k p m r → Takes k' p m r' → k ≤ k' := by
    intro k k' r r' h h'
    by_contra hlt
    have hrun := (h k').symm.trans (h' k')
    rw [if_neg hlt, if_pos k'.le_refl] at hrun
    cases hrun
  exact Nat.le_antisymm (hle h h') (hle h' h)

private theorem Takes.turn {q : Nat → Prog α W ρ β} (h : Takes k q m r)
    (hzero : (p 0).run m = .error .outOfFuel) (hsucc : ∀ fuel, (p (fuel + 1)).run m = (q fuel).run m) :
    Takes (k + 1) p m r := by
  intro fuel
  cases fuel with
  | zero => simp [hzero]
  | succ fuel =>
    rw [hsucc, h fuel]
    simp only [Nat.add_le_add_iff_right]

private theorem Takes.last (hzero : (p 0).run m = .error .outOfFuel)
    (hsucc : ∀ fuel, (p (fuel + 1)).run m = .ok (r, m)) : Takes 1 p m r := by
  intro fuel
  cases fuel with
  | zero => simp [hzero]
  | succ fuel => simp [hsucc]

private theorem Takes.atOnce (h : ∀ fuel, (p fuel).run m = .ok (r, m)) : Takes 0 p m r := by
  intro fuel
  rw [h, if_pos fuel.zero_le]

/-- The turns of a walk, from a list of what each step takes. -/
private theorem exists_turns [DecidableEq α] {live : List α} (next : Nat → Option α → Prog α W ρ β)
    {costs : List (α × Nat)}
    (hperm : (costs.map Prod.fst).Perm live)
    (hcosts : ∀ xk ∈ costs, ∃ r, Takes xk.2 (fun fuel => next fuel (some xk.1)) m r) :
    ∃ turns : α → Nat, (∀ x ∈ live, ∃ r, Takes (turns x) (fun fuel => next fuel (some x)) m r) ∧
      (live.map turns).sum = (costs.map Prod.snd).sum := by
  have hsteps : ∀ x, ∃ k, x ∈ live → ∃ r, Takes k (fun fuel => next fuel (some x)) m r := by
    intro x
    by_cases hx : x ∈ live
    · obtain ⟨⟨y, k⟩, hyk, rfl⟩ := List.mem_map.mp (hperm.mem_iff.mpr hx)
      exact ⟨k, fun _ => hcosts _ hyk⟩
    · exact ⟨0, fun hx' => absurd hx' hx⟩
  choose turns hturns using hsteps
  refine ⟨turns, hturns, ?_⟩
  rw [← (hperm.map turns).sum_eq, List.map_map]
  refine congrArg List.sum (List.map_congr_left fun xk hxk => ?_)
  obtain ⟨r, htakes⟩ := hturns xk.1 (hperm.mem_iff.mp (List.mem_map_of_mem hxk))
  obtain ⟨r', htakes'⟩ := hcosts xk hxk
  exact htakes.unique htakes'

end Programs

section Walks
variable [Word α W] {m : Memory α W ρ} {root : ρ} {p : Option α} {d : Dir} {x : α}
  {t near far : ColorTree α} {c : Color} {ctx : List (Frame α)}

/-- The descent passes the nodes of the spine. -/
private theorem takes_endLoop (h : Rep m p t) (hx : t.root = some x) :
    Takes (t.spine d) (fun fuel => endLoop d fuel (some x)) m (t.listFrom d).head? := by
  induction t using ColorTree.branch_induction d generalizing p x with
  | nil => cases hx
  | branch c y near far ih =>
    obtain rfl : y = x := Option.some.inj ((root_branch ..).symm.trans hx)
    obtain ⟨-, hnear, -, hrep, -⟩ := rep_branch.mp h
    rw [spine_branch, listFrom_branch]
    cases hroot : near.root with
    | none =>
      obtain rfl := root_eq_none.mp hroot
      refine .last rfl fun fuel => ?_
      rw [endLoop, StateT.run_bind, run_loadChild, pure_bind, hnear, listFrom_nil]
      rfl
    | some v =>
      have hne : near.listFrom d ≠ [] :=
        List.ne_nil_of_mem ((perm_listFrom near d).mem_iff.mpr (root_mem hroot))
      rw [List.head?_append_of_ne_nil _ hne]
      refine (ih hrep hroot).turn rfl fun fuel => ?_
      rw [endLoop, StateT.run_bind, run_loadChild, pure_bind, hnear, hroot]
      rfl

private theorem takes_startSide (h : At m root [] t) :
    Takes (t.spine d) (fun fuel => startSide d fuel root) m (t.listFrom d).head? := by
  intro fuel
  change (startSide d fuel root).run m = _
  rw [startSide, StateT.run_bind, run_loadNode h.link, pure_bind]
  cases hroot : t.root with
  | none =>
    obtain rfl := root_eq_none.mp hroot
    simp [spine]
    rfl
  | some v => exact takes_endLoop h.rep hroot fuel

variable [DecidableEq α]

private theorem takes_climbLoop (h : At m root ctx t) (hx : t.root = some x) :
    Takes (climb d ctx) (fun fuel => climbLoop d fuel (some x)) m (beyond d ctx).head? := by
  induction ctx generalizing t x with
  | nil =>
    refine .last rfl fun fuel => ?_
    rw [climbLoop, StateT.run_bind, run_rbParent, pure_bind, parent_of_at h hx]
    rfl
  | cons f ctx ih =>
    have hfill := at_fill.mp h
    obtain ⟨-, hlink, hsib, -⟩ := rep_branch.mp hfill.rep
    have hturn : ∀ fuel, (climbLoop d (fuel + 1) (some x)).run m =
        (if some x = m.child d.flip f.value then climbLoop d fuel (some f.value)
          else pure (some f.value)).run m := by
      intro fuel
      rw [climbLoop, StateT.run_bind, run_rbParent, pure_bind, parent_of_at h hx, above_cons]
      simp only [Option.isSome_some, if_true, StateT.run_bind, run_loadChild, pure_bind]
    rw [climb, beyond]
    by_cases hd : f.dir = d
    · have hne : some x ≠ m.child d.flip f.value := by
        rw [← hd, hsib]
        have hdisj := (nodup_branch.mp (nodup_plug.mp hfill.nodup).1).2.2.2.2
        exact root_ne (hdisj (root_mem hx))
      rw [if_pos hd, if_pos hd]
      refine .last rfl fun fuel => ?_
      rw [hturn, if_neg hne]
      rfl
    · have hflip := Dir.eq_flip_of_ne hd
      have heq : some x = m.child d.flip f.value := by rw [← hflip, hlink, hx]
      rw [if_neg hd, if_neg hd, List.nil_append]
      refine (ih hfill (root_branch ..)).turn rfl fun fuel => ?_
      rw [hturn, if_pos heq]

variable [DecidableEq W]

/-- A step is as long as the way to the next node. -/
private theorem takes_stepSide (h : At m root ctx (branch d c x near far)) :
    ∃ r, Takes (stepCost d (climb d ctx) far) (fun fuel => stepSide d fuel (some x)) m r := by
  obtain ⟨-, -, hfar, -, hrep⟩ := rep_branch.mp h.rep
  have hturn : ∀ fuel, (stepSide d fuel (some x)).run m =
      (if far.root.isSome then endLoop d fuel far.root else climbLoop d fuel (some x)).run m := by
    intro fuel
    rw [stepSide, StateT.run_bind, run_rbEmptyNode h (root_branch ..), pure_bind]
    simp only [Bool.false_eq_true, if_false, StateT.run_bind, run_loadChild, pure_bind, hfar]
  rw [stepCost]
  cases hroot : far.root with
  | none =>
    rw [hroot] at hturn
    exact ⟨_, fun fuel => (hturn fuel).trans (takes_climbLoop h (root_branch ..) fuel)⟩
  | some v =>
    rw [hroot] at hturn
    exact ⟨_, fun fuel => (hturn fuel).trans (takes_endLoop hrep hroot fuel)⟩

end Walks

section Descents
variable [Word α W] {m : Memory α W ρ} {root : ρ} {p : Option α} {x : α} {t : ColorTree α}

/-- Looking for a key goes down one level a turn, and once more to see NULL. -/
private theorem endsWithin_findLoop (keys : α → Int) (key : Int) (h : Rep m p t) :
    EndsWithin (t.height + 1) (fun fuel => findLoop keys key fuel t.root) m := by
  induction t generalizing p with
  | nil => exact .last fun _ => rfl
  | node c l x r ihl ihr =>
    obtain ⟨-, hl, hr, hrl, hrr⟩ := h
    rw [height]
    by_cases heq : key = keys x
    · refine (EndsWithin.last (r := (some x, m)) fun fuel => ?_).mono (Nat.le_add_left ..)
      simp only [findLoop, root_node, if_pos heq]
      rfl
    · by_cases hlt : key < keys x
      · refine ((ihl hrl).turn fun fuel => ?_).mono
          (Nat.succ_le_succ (Nat.succ_le_succ (Nat.le_max_left ..)))
        simp only [findLoop, root_node, if_neg heq, if_pos hlt]
        rw [StateT.run_bind, run_loadLeft, pure_bind, hl]
      · refine ((ihr hrr).turn fun fuel => ?_).mono
          (Nat.succ_le_succ (Nat.succ_le_succ (Nat.le_max_right ..)))
        simp only [findLoop, root_node, if_neg heq, if_neg hlt]
        rw [StateT.run_bind, run_loadRight, pure_bind, hr]

/-- The descent to the left, else to the right. -/
private theorem takes_rbLeftDeepestNode (h : Rep m p t) (hx : t.root = some x) :
    ∃ r, Takes t.deepest (fun fuel => rbLeftDeepestNode fuel (some x)) m r := by
  induction t generalizing p x with
  | nil => cases hx
  | node c l y r ihl ihr =>
    obtain rfl : y = x := Option.some.inj hx
    obtain ⟨-, hl, hr, hll, hlr⟩ := h
    have hturn : ∀ fuel, (rbLeftDeepestNode (fuel + 1) (some y)).run m =
        (if l.root.isSome then rbLeftDeepestNode fuel l.root
          else if r.root.isSome then rbLeftDeepestNode fuel r.root
          else pure (some y)).run m := by
      intro fuel
      rw [rbLeftDeepestNode, StateT.run_bind, run_loadLeft, pure_bind, hl]
      split
      · rfl
      · rw [StateT.run_bind, run_loadRight, pure_bind, hr]
    rw [deepest]
    cases hleft : l.root with
    | some v =>
      rw [hleft] at hturn
      obtain ⟨a, htakes⟩ := ihl hll hleft
      exact ⟨a, htakes.turn rfl hturn⟩
    | none =>
      rw [hleft] at hturn
      cases hright : r.root with
      | some v =>
        rw [hright] at hturn
        obtain ⟨a, htakes⟩ := ihr hlr hright
        exact ⟨a, htakes.turn rfl hturn⟩
      | none =>
        rw [hright] at hturn
        obtain rfl := root_eq_none.mp hright
        exact ⟨_, .last rfl hturn⟩

private theorem takes_rbFirstPostorder (h : At m root [] t) :
    ∃ r, Takes t.deepest (fun fuel => rbFirstPostorder fuel root) m r := by
  have hturn : ∀ fuel, (rbFirstPostorder fuel root).run m =
      (if t.root.isNone then pure none else rbLeftDeepestNode fuel t.root).run m := by
    intro fuel
    rw [rbFirstPostorder, StateT.run_bind, run_loadNode h.link, pure_bind]
  cases hroot : t.root with
  | none =>
    obtain rfl := root_eq_none.mp hroot
    exact ⟨_, .atOnce hturn⟩
  | some v =>
    rw [hroot] at hturn
    obtain ⟨r, htakes⟩ := takes_rbLeftDeepestNode h.rep hroot
    exact ⟨r, fun fuel => (hturn fuel).trans (htakes fuel)⟩

private theorem takes_rbNextPostorder [DecidableEq α] {ctx : List (Frame α)} {c : Color}
    {l r : ColorTree α} (h : At m root ctx (node c l x r)) :
    ∃ a, Takes (postStepCost ctx) (fun fuel => rbNextPostorder fuel (some x)) m a := by
  have hturn : ∀ fuel, (rbNextPostorder fuel (some x)).run m =
      ((above ctx).elim (pure none) fun y => if some x = m.rbLeft y ∧ (m.rbRight y).isSome
        then rbLeftDeepestNode fuel (m.rbRight y) else pure (some y)).run m := by
    intro fuel
    simp only [rbNextPostorder, Option.isNone_some, Bool.false_eq_true, if_false, StateT.run_bind,
      run_rbParent, pure_bind, parent_of_at h (root_node ..)]
    cases above ctx with
    | none => rfl
    | some y =>
      by_cases hl : some x = m.rbLeft y
      · by_cases hr : (m.rbRight y).isSome <;> simp [hl, hr]
      · simp [hl]
  cases ctx with
  | nil => exact ⟨_, .atOnce hturn⟩
  | cons f ctx =>
    have hfill := at_fill.mp h
    obtain ⟨-, hlink, hsib, -, hrep⟩ := rep_branch.mp hfill.rep
    have hdisj := (nodup_branch.mp (nodup_plug.mp hfill.nodup).1).2.2.2.2
    obtain ⟨d, cf, y, sib⟩ := f
    cases d with
    | left =>
      have hleft : m.rbLeft y = some x := hlink
      have hright : m.rbRight y = sib.root := hsib
      simp only [above_cons, Option.elim_some, hleft, hright, true_and] at hturn
      cases hroot : sib.root with
      | none =>
        obtain rfl := root_eq_none.mp hroot
        exact ⟨_, .atOnce hturn⟩
      | some v =>
        rw [hroot] at hturn
        obtain ⟨a, htakes⟩ := takes_rbLeftDeepestNode hrep hroot
        exact ⟨a, fun fuel => (hturn fuel).trans (htakes fuel)⟩
    | right =>
      have hne : some x ≠ m.rbLeft y := fun heq =>
        root_ne (hdisj (root_mem (root_node ..))) (heq.trans hsib)
      simp only [above_cons, Option.elim_some, hne, false_and, if_false] at hturn
      exact ⟨_, .atOnce hturn⟩

end Descents

/-- Two turns for each level of a full tree of so many nodes, and one more. -/
def turnBound (n : Nat) : Nat := 2 * Nat.log 2 (n + 1) + 1

section Calls
variable [DecidableEq α] [DecidableEq ρ] [Word α W] {m : Memory α W ρ} {root : ρ} {live : List α}
  {t : ColorTree α} {x : α}

omit [DecidableEq α] [DecidableEq ρ] in
private theorem RedBlackTree.height_lt (h : RedBlackTree m root live t) :
    t.height < turnBound live.length := by
  obtain ⟨N, hb⟩ := h.balanced
  rw [← h.perm.length_eq]
  exact Nat.lt_succ_of_le hb.height_le_log

private theorem RedBlackTree.endsWithin_program {op : Op α ρ} (h : RedBlackTree m root live t)
    (hlegal : Legal root ⟨m, live⟩ op) :
    EndsWithin (turnBound live.length) (fun fuel => op.program root fuel) m := by
  obtain ⟨N, hb⟩ := h.balanced
  have hheight := h.height_lt
  cases op with
  | insert x parent rbLink =>
    obtain ⟨hx, hplace, hnull⟩ := hlegal
    obtain ⟨ctx, rfl, rfl, rfl⟩ := onTree_place h.toAt h.perm hplace hnull
    obtain ⟨m', hrun, -⟩ := run_rbInsert (at_plug.mpr h.toAt) (h.notMem_around hx) hb
      ((length_le_height_plug rfl).trans_lt hheight)
    exact (settled_program (.insert x ..) root).endsWithin hrun
  | erase x =>
    obtain ⟨ctx, c, l, r, rfl⟩ := exists_plug (h.perm.mem_iff.mpr hlegal)
    obtain ⟨m', hrun, -⟩ := run_rbErase (at_plug.mpr h.toAt) hb
      ((length_splice_lt ctx c l x r).le.trans hheight.le)
    exact (settled_program (.erase x) root).endsWithin hrun

private theorem RedBlackTree.endsWithin_insert (keys : α → Int) (h : RedBlackTree m root live t)
    (hx : x ∉ live) : EndsWithin (turnBound live.length) (fun fuel => insert keys fuel x root) m := by
  obtain ⟨N, hb⟩ := h.balanced
  have hheight := h.height_lt
  have hplug := plug_place keys (keys x) t []
  have hloop : (place keys (keys x) t []).length < turnBound live.length →
      (insertLoop keys (keys x) (turnBound live.length) (.rbNode root) none).run m = _ :=
    run_insertLoop keys (keys x) _ h.toAt
  generalize place keys (keys x) t [] = ctx at hplug hloop
  obtain rfl : plug ctx .nil = t := hplug
  have hlt := (length_le_height_plug rfl).trans_lt hheight
  obtain ⟨m', hrun, -⟩ := run_rbInsert (at_plug.mpr h.toAt) (h.notMem_around hx) hb hlt
  refine (settled_request (.insert x (keys x)) keys root).endsWithin (r := ((), m')) ?_
  rw [insert, StateT.run_bind, hloop hlt, pure_bind]
  exact hrun

omit [DecidableEq α] [DecidableEq ρ] in
private theorem RedBlackTree.endsWithin_find (keys : α → Int) (key : Int)
    (h : RedBlackTree m root live t) :
    EndsWithin (turnBound live.length) (fun fuel => find keys fuel key root) m := by
  have hloop := (endsWithin_findLoop keys key h.rep).mono h.height_lt
  rw [← h.rbNode] at hloop
  exact hloop

omit [DecidableEq ρ] in
private theorem RedBlackTree.endsWithin_rbNextPostorder (h : RedBlackTree m root live t)
    (hx : x ∈ live) :
    EndsWithin (turnBound live.length) (fun fuel => rbNextPostorder fuel (some x)) m := by
  have hheight := h.height_lt
  obtain ⟨ctx, c, l, r, rfl⟩ := exists_plug (h.perm.mem_iff.mpr hx)
  obtain ⟨a, htakes⟩ := takes_rbNextPostorder (at_plug.mpr h.toAt)
  exact htakes.endsWithin.mono ((postStepCost_le_height ctx _).trans hheight.le)

end Calls

section Sides
variable [DecidableEq α] [DecidableEq W] [Word α W] {m : Memory α W ρ} {root : ρ} {live : List α}
  {t : ColorTree α} {x : α}

private theorem RedBlackTree.endsWithin_stepSide (d : Dir) (h : RedBlackTree m root live t)
    (hx : x ∈ live) :
    EndsWithin (turnBound live.length) (fun fuel => stepSide d fuel (some x)) m := by
  have hheight := h.height_lt
  obtain ⟨ctx, c, near, far, rfl⟩ := exists_plug_branch d (h.perm.mem_iff.mpr hx)
  obtain ⟨r, htakes⟩ := takes_stepSide (at_plug.mpr h.toAt)
  exact htakes.endsWithin.mono ((stepCost_le_height ctx d c x near far).trans hheight.le)

/-- The walk from the side `d`: the start and all steps make two turns for each node. -/
private theorem RedBlackTree.walk_takes (d : Dir) (h : RedBlackTree m root live t) :
    ∃ first turns, (∃ r, Takes first (fun fuel => startSide d fuel root) m r) ∧
      (∀ x ∈ live, ∃ r, Takes (turns x) (fun fuel => stepSide d fuel (some x)) m r) ∧
      first + (live.map turns).sum = 2 * live.length := by
  have hperm : ((stepCosts d 1 t).map Prod.fst).Perm live := by
    rw [map_fst_stepCosts]
    exact (perm_listFrom t d).trans h.perm
  obtain ⟨turns, hturns, hsum⟩ := exists_turns (m := m) (stepSide d) hperm fun xk hxk => by
    obtain ⟨x, k⟩ := xk
    obtain ⟨ctx, c, near, far, rfl, rfl⟩ := mem_stepCosts [] hxk
    exact takes_stepSide (at_plug.mpr h.toAt)
  refine ⟨_, turns, ⟨_, takes_startSide h.toAt⟩, hturns, ?_⟩
  rw [hsum, ← h.perm.length_eq]
  by_cases hnil : t = .nil
  · subst hnil
    rfl
  · exact Nat.succ.inj (sum_stepCosts d 1 hnil)

omit [DecidableEq W] in
/-- The walk in post-order passes every node once. -/
private theorem RedBlackTree.postorder_takes (h : RedBlackTree m root live t) :
    ∃ first turns, (∃ r, Takes first (fun fuel => rbFirstPostorder fuel root) m r) ∧
      (∀ x ∈ live, ∃ r, Takes (turns x) (fun fuel => rbNextPostorder fuel (some x)) m r) ∧
      first + (live.map turns).sum = live.length := by
  have hperm : ((postStepCosts [] t).map Prod.fst).Perm live := by
    rw [map_fst_postStepCosts]
    exact (perm_postorder t).trans h.perm
  obtain ⟨turns, hturns, hsum⟩ := exists_turns (m := m) rbNextPostorder hperm fun xk hxk => by
    obtain ⟨x, k⟩ := xk
    obtain ⟨ctx, c, l, r, rfl, rfl⟩ := mem_postStepCosts hxk
    exact takes_rbNextPostorder (at_plug.mpr h.toAt)
  refine ⟨_, turns, takes_rbFirstPostorder h.toAt, hturns, ?_⟩
  rw [hsum, ← h.perm.length_eq]
  by_cases hnil : t = .nil
  · subst hnil
    rfl
  · exact sum_postStepCosts [] hnil

end Sides

section Runs
variable [DecidableEq α] [DecidableEq ρ] [DecidableEq W] [Word α W] {root : ρ} {s : State α W ρ}

/-- In every run from `RB_ROOT`, no loop of any call makes more than logarithmically many turns. -/
theorem turns_are_logarithmic {m : Memory α W ρ} (h₀ : m.rbNode root = none)
    (h : Reachable (step root) ⟨m, []⟩ s) :
    (∀ op, Legal root s op →
      EndsWithin (turnBound s.live.length) (fun fuel => op.program root fuel) s.memory) ∧
    (∀ keys : α → Int,
      (∀ e, e ∉ s.live →
        EndsWithin (turnBound s.live.length) (fun fuel => insert keys fuel e root) s.memory) ∧
      ∀ key, EndsWithin (turnBound s.live.length) (fun fuel => find keys fuel key root) s.memory) ∧
    (EndsWithin (turnBound s.live.length) (fun fuel => rbFirst fuel root) s.memory ∧
      EndsWithin (turnBound s.live.length) (fun fuel => rbLast fuel root) s.memory ∧
      EndsWithin (turnBound s.live.length) (fun fuel => rbFirstPostorder fuel root) s.memory) ∧
    ∀ x ∈ s.live,
      EndsWithin (turnBound s.live.length) (fun fuel => rbNext fuel (some x)) s.memory ∧
      EndsWithin (turnBound s.live.length) (fun fuel => rbPrev fuel (some x)) s.memory ∧
      EndsWithin (turnBound s.live.length) (fun fuel => rbNextPostorder fuel (some x)) s.memory := by
  obtain ⟨t, ht⟩ := reachable_redBlackTree h₀ h
  have hheight := ht.height_lt.le
  have hstart : ∀ d, EndsWithin (turnBound s.live.length) (fun fuel => startSide d fuel root) s.memory :=
    fun d => (takes_startSide ht.toAt).endsWithin.mono ((spine_le_height t d).trans hheight)
  simp only [rbFirst_eq, rbLast_eq, rbNext_eq, rbPrev_eq]
  refine ⟨fun op hlegal => ht.endsWithin_program hlegal, fun keys => ⟨fun e he => ?_, fun key => ?_⟩,
    ⟨hstart .left, hstart .right, ?_⟩, fun x hx => ⟨?_, ?_, ?_⟩⟩
  · exact ht.endsWithin_insert keys he
  · exact ht.endsWithin_find keys key
  · obtain ⟨r, htakes⟩ := takes_rbFirstPostorder ht.toAt
    exact htakes.endsWithin.mono ((deepest_le_height t).trans hheight)
  · exact ht.endsWithin_stepSide .left hx
  · exact ht.endsWithin_stepSide .right hx
  · exact ht.endsWithin_rbNextPostorder hx

/-- In a tree of three nodes, five turns are enough for every call. -/
theorem five_turns_for_three :
    ∃ s : State Address (BitVec 64) Unit, s.live.length = 3 ∧
      ∀ op, Legal () s op → EndsWithin 5 (fun fuel => op.program () fuel) s.memory :=
  ⟨_, rfl, (turns_are_logarithmic rfl reachable_threeNodes).1⟩

/-- In every run from `RB_ROOT`, a walk in order over `n` nodes makes `2 * n` turns in all, in
either direction, and a walk in post-order `n` turns. -/
theorem walks_are_linear {m : Memory α W ρ} (h₀ : m.rbNode root = none)
    (h : Reachable (step root) ⟨m, []⟩ s) :
    (∃ first turns, (∃ r, Takes first (fun fuel => rbFirst fuel root) s.memory r) ∧
      (∀ x ∈ s.live, ∃ r, Takes (turns x) (fun fuel => rbNext fuel (some x)) s.memory r) ∧
      first + (s.live.map turns).sum = 2 * s.live.length) ∧
    (∃ first turns, (∃ r, Takes first (fun fuel => rbLast fuel root) s.memory r) ∧
      (∀ x ∈ s.live, ∃ r, Takes (turns x) (fun fuel => rbPrev fuel (some x)) s.memory r) ∧
      first + (s.live.map turns).sum = 2 * s.live.length) ∧
    ∃ first turns, (∃ r, Takes first (fun fuel => rbFirstPostorder fuel root) s.memory r) ∧
      (∀ x ∈ s.live, ∃ r, Takes (turns x) (fun fuel => rbNextPostorder fuel (some x)) s.memory r) ∧
      first + (s.live.map turns).sum = s.live.length := by
  obtain ⟨t, ht⟩ := reachable_redBlackTree h₀ h
  simp only [rbFirst_eq, rbLast_eq, rbNext_eq, rbPrev_eq]
  exact ⟨ht.walk_takes .left, ht.walk_takes .right, ht.postorder_takes⟩

/-- The steps over three nodes, from the first one on. -/
theorem walk_over_three :
    ∃ (s : State Address (BitVec 64) Unit) (first : Nat) (turns : Address → Nat),
      (∃ r, Takes first (fun fuel => rbFirst fuel ()) s.memory r) ∧
      first + (s.live.map turns).sum = 6 := by
  obtain ⟨first, turns, hfirst, -, hsum⟩ := (walks_are_linear rfl reachable_threeNodes).1
  exact ⟨_, first, turns, hfirst, hsum⟩

end Runs
end CommonProject.RBTree

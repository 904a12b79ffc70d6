import CommonProject.Foundations.Traversal
import CommonProject.RBTree.Rotation

/-! `rb_first`, `rb_last`, `rb_next` and `rb_prev` follow the order of the tree. -/
namespace CommonProject.RBTree
open Foundations.RedBlack
variable {α W ρ : Type}

/-- `while (n->rb_left) n = n->rb_left`. -/
def leftmostLoop : Nat → Option α → Prog α W ρ (Option α)
  | 0, _ => throw .outOfFuel
  | fuel + 1, n => do
    let tmp ← loadLeft n
    if tmp.isSome then leftmostLoop fuel tmp else return n

/-- `while (n->rb_right) n = n->rb_right`. -/
def rightmostLoop : Nat → Option α → Prog α W ρ (Option α)
  | 0, _ => throw .outOfFuel
  | fuel + 1, n => do
    let tmp ← loadRight n
    if tmp.isSome then rightmostLoop fuel tmp else return n

def rbFirst (fuel : Nat) (root : ρ) : Prog α W ρ (Option α) := do
  let n ← loadNode root
  if n.isNone then return none
  else leftmostLoop fuel n

def rbLast (fuel : Nat) (root : ρ) : Prog α W ρ (Option α) := do
  let n ← loadNode root
  if n.isNone then return none
  else rightmostLoop fuel n

section Steps
variable [DecidableEq α] [Word α W]

def rbEmptyNode [DecidableEq W] (node : Option α) : Prog α W ρ Bool := do
  let w ← loadParentColor node
  return decide (w = Word.ofParent node)

/-- `while ((parent = rb_parent(node)) && node == parent->rb_right) node = parent`. -/
def climbRightLoop : Nat → Option α → Prog α W ρ (Option α)
  | 0, _ => throw .outOfFuel
  | fuel + 1, node => do
    let parent ← rbParent node
    if parent.isSome then
      if node = (← loadRight parent) then climbRightLoop fuel parent else return parent
    else return parent

/-- `while ((parent = rb_parent(node)) && node == parent->rb_left) node = parent`. -/
def climbLeftLoop : Nat → Option α → Prog α W ρ (Option α)
  | 0, _ => throw .outOfFuel
  | fuel + 1, node => do
    let parent ← rbParent node
    if parent.isSome then
      if node = (← loadLeft parent) then climbLeftLoop fuel parent else return parent
    else return parent

def rbNext [DecidableEq W] (fuel : Nat) (node : Option α) : Prog α W ρ (Option α) := do
  if ← rbEmptyNode node then return none
  else
    let right ← loadRight node
    if right.isSome then
      -- go down and then left as far as we can
      leftmostLoop fuel right
    else climbRightLoop fuel node

def rbPrev [DecidableEq W] (fuel : Nat) (node : Option α) : Prog α W ρ (Option α) := do
  if ← rbEmptyNode node then return none
  else
    let left ← loadLeft node
    if left.isSome then
      -- go down and then right as far as we can
      rightmostLoop fuel left
    else climbLeftLoop fuel node

end Steps

section Sides

def endLoop (d : Dir) : Nat → Option α → Prog α W ρ (Option α)
  | 0, _ => throw .outOfFuel
  | fuel + 1, n => do
    let tmp ← loadChild d n
    if tmp.isSome then endLoop d fuel tmp else return n

def startSide (d : Dir) (fuel : Nat) (root : ρ) : Prog α W ρ (Option α) := do
  let n ← loadNode root
  if n.isNone then return none
  else endLoop d fuel n

private theorem leftmostLoop_eq (fuel : Nat) (n : Option α) :
    (leftmostLoop fuel n : Prog α W ρ _) = endLoop .left fuel n := by
  induction fuel generalizing n with
  | zero => rfl
  | succ fuel ih => simp only [leftmostLoop, endLoop, ih, loadChild]

private theorem rightmostLoop_eq (fuel : Nat) (n : Option α) :
    (rightmostLoop fuel n : Prog α W ρ _) = endLoop .right fuel n := by
  induction fuel generalizing n with
  | zero => rfl
  | succ fuel ih => simp only [rightmostLoop, endLoop, ih, loadChild]

theorem rbFirst_eq (fuel : Nat) (root : ρ) :
    (rbFirst fuel root : Prog α W ρ _) = startSide .left fuel root := by
  simp only [rbFirst, startSide, leftmostLoop_eq]

theorem rbLast_eq (fuel : Nat) (root : ρ) :
    (rbLast fuel root : Prog α W ρ _) = startSide .right fuel root := by
  simp only [rbLast, startSide, rightmostLoop_eq]

variable [DecidableEq α] [Word α W]

/-- The first node up that is not reached from its side away from `d`. -/
def climbLoop (d : Dir) : Nat → Option α → Prog α W ρ (Option α)
  | 0, _ => throw .outOfFuel
  | fuel + 1, node => do
    let parent ← rbParent node
    if parent.isSome then
      if node = (← loadChild d.flip parent) then climbLoop d fuel parent else return parent
    else return parent

def stepSide [DecidableEq W] (d : Dir) (fuel : Nat) (node : Option α) : Prog α W ρ (Option α) := do
  if ← rbEmptyNode node then return none
  else
    let far ← loadChild d.flip node
    if far.isSome then endLoop d fuel far
    else climbLoop d fuel node

private theorem climbRightLoop_eq (fuel : Nat) (node : Option α) :
    (climbRightLoop fuel node : Prog α W ρ _) = climbLoop .left fuel node := by
  induction fuel generalizing node with
  | zero => rfl
  | succ fuel ih => simp only [climbRightLoop, climbLoop, ih, loadChild, Dir.flip]

private theorem climbLeftLoop_eq (fuel : Nat) (node : Option α) :
    (climbLeftLoop fuel node : Prog α W ρ _) = climbLoop .right fuel node := by
  induction fuel generalizing node with
  | zero => rfl
  | succ fuel ih => simp only [climbLeftLoop, climbLoop, ih, loadChild, Dir.flip]

theorem rbNext_eq [DecidableEq W] (fuel : Nat) (node : Option α) :
    (rbNext fuel node : Prog α W ρ _) = stepSide .left fuel node := by
  simp only [rbNext, stepSide, leftmostLoop_eq, climbRightLoop_eq, loadChild, Dir.flip]

theorem rbPrev_eq [DecidableEq W] (fuel : Nat) (node : Option α) :
    (rbPrev fuel node : Prog α W ρ _) = stepSide .right fuel node := by
  simp only [rbPrev, stepSide, rightmostLoop_eq, climbLeftLoop_eq, loadChild, Dir.flip]

end Sides

section Run
open ColorTree
variable [Word α W] {m : Memory α W ρ} {root : ρ} {p : Option α} {d : Dir} {x : α} {t : ColorTree α}
  {ctx : List (Frame α)} {fuel : Nat} {a b : List α}

/-- The descent ends at the first node on its side. -/
private theorem run_endLoop (h : Rep m p t) (hx : t.root = some x)
    (hfuel : t.toList.length ≤ fuel) :
    (endLoop d fuel (some x)).run m = (pure ((t.listFrom d).head?, m) : Except Fault _) := by
  induction fuel generalizing t x p with
  | zero =>
    cases t with
    | nil => cases hx
    | node c l y r => simp [toList] at hfuel
  | succ fuel ih =>
    cases t with
    | nil => cases hx
    | node c l y r =>
      obtain rfl : y = x := Option.some.inj hx
      rw [node_eq_branch d] at h hfuel ⊢
      generalize (node c l y r).child d = near at h hfuel ⊢
      generalize (node c l y r).child d.flip = far at h hfuel ⊢
      obtain ⟨-, hnear, -, hrep, -⟩ := rep_branch.mp h
      rw [endLoop, StateT.run_bind, run_loadChild, pure_bind, hnear, listFrom_branch]
      cases hroot : near.root with
      | none =>
        obtain rfl := root_eq_none.mp hroot
        simp
      | some v =>
        have hlen := perm_branch.length_eq ▸ hfuel
        simp only [List.length_cons, List.length_append] at hlen
        have hne : near.listFrom d ≠ [] := by
          have hmem := (perm_listFrom near d).mem_iff.mpr (root_mem hroot)
          exact List.ne_nil_of_mem hmem
        have hrec := ih (t := near) hrep hroot (by omega)
        rw [List.head?_append_of_ne_nil _ hne]
        simpa using hrec

theorem run_startSide (h : At m root [] t) (hfuel : t.toList.length ≤ fuel) :
    (startSide d fuel root).run m = (pure ((t.listFrom d).head?, m) : Except Fault _) := by
  rw [startSide, StateT.run_bind, run_loadNode h.link, pure_bind]
  cases hroot : t.root with
  | none =>
    obtain rfl := root_eq_none.mp hroot
    simp
  | some v => exact run_endLoop h.rep hroot hfuel

theorem parent_of_at (h : At m root ctx t) (hx : t.root = some x) :
    Word.parent (m.rbParentColor x) = above ctx := by
  cases t with
  | nil => cases hx
  | node c l y r =>
    obtain rfl : y = x := Option.some.inj hx
    rw [h.rep.1, Word.parent_pack]

variable [DecidableEq α]

/-- The climb ends at the first node beyond. -/
private theorem run_climbLoop (h : At m root ctx t) (hx : t.root = some x)
    (hfuel : ctx.length < fuel) :
    (climbLoop d fuel (some x)).run m = (pure ((beyond d ctx).head?, m) : Except Fault _) := by
  induction ctx generalizing t x fuel with
  | nil =>
    obtain ⟨k, rfl⟩ := Nat.exists_eq_add_one_of_ne_zero (Nat.ne_zero_of_lt hfuel)
    rw [climbLoop, StateT.run_bind, run_rbParent, pure_bind, parent_of_at h hx]
    rfl
  | cons f ctx ih =>
    obtain ⟨k, rfl⟩ := Nat.exists_eq_add_one_of_ne_zero (Nat.ne_zero_of_lt hfuel)
    have hfill := at_fill.mp h
    obtain ⟨-, hlink, hsib, -⟩ := rep_branch.mp hfill.rep
    rw [climbLoop, StateT.run_bind, run_rbParent, pure_bind, parent_of_at h hx, above_cons]
    simp only [Option.isSome_some, if_true, StateT.run_bind, run_loadChild, pure_bind, beyond]
    by_cases hd : f.dir = d
    · have hne : some x ≠ m.child d.flip f.value := by
        rw [← hd, hsib]
        have hdisj := (nodup_branch.mp (nodup_plug.mp hfill.nodup).1).2.2.2.2
        exact root_ne (hdisj (root_mem hx))
      rw [if_neg hne, if_pos hd]
      rfl
    · have hflip := Dir.eq_flip_of_ne hd
      have heq : some x = m.child d.flip f.value := by rw [← hflip, hlink, hx]
      rw [if_pos heq, if_neg hd, List.nil_append]
      exact ih hfill (root_branch ..) (Nat.lt_of_succ_lt_succ hfuel)

variable [DecidableEq W]

omit [DecidableEq α] in
/-- A linked node is not its own parent. -/
theorem run_rbEmptyNode (h : At m root ctx t) (hx : t.root = some x) :
    (rbEmptyNode (some x)).run m = (pure (false, m) : Except Fault _) := by
  have hne : m.rbParentColor x ≠ Word.ofParent (some x) := by
    intro heq
    have habove := (parent_of_at h hx).symm
    rw [heq, Word.ofParent_eq, Word.parent_pack] at habove
    cases ctx with
    | nil => cases habove
    | cons f ctx =>
      have hmem : x ∈ around (f :: ctx) := by simp [around, Option.some.inj habove]
      exact (nodup_plug.mp h.nodup).2.2 (root_mem hx) hmem
  rw [rbEmptyNode, StateT.run_bind, run_loadParentColor, pure_bind, decide_eq_false hne]
  rfl

/-- A step goes to the next node of the list. -/
theorem run_stepSide (h : At m root [] t) (hlist : t.listFrom d = b ++ x :: a)
    (hfuel : t.toList.length < fuel) :
    (stepSide d fuel (some x)).run m = (pure (a.head?, m) : Except Fault _) := by
  have hmem : x ∈ t.toList := by
    rw [← (perm_listFrom t d).mem_iff, hlist]
    simp
  obtain ⟨ctx, c, l, r, rfl⟩ := exists_plug hmem
  rw [node_eq_branch d] at h hlist hfuel
  generalize (node c l x r).child d = near at h hlist hfuel
  generalize (node c l x r).child d.flip = far at h hlist hfuel
  have hlen := length_le_toList_plug ctx (branch d c x near far)
  obtain ⟨b', hb'⟩ : ∃ b', (plug ctx (branch d c x near far)).listFrom d =
      b' ++ x :: (far.listFrom d ++ beyond d ctx) := listFrom_plug_branch ctx
  obtain ⟨-, rfl⟩ := append_cons_unique ((perm_listFrom _ d).nodup_iff.mpr h.nodup) hlist hb'
  have hat := at_plug.mpr h
  obtain ⟨-, -, hfar, -, hrep⟩ := rep_branch.mp hat.rep
  rw [stepSide, StateT.run_bind, run_rbEmptyNode hat (root_branch ..), pure_bind]
  simp only [Bool.false_eq_true, if_false, StateT.run_bind, run_loadChild, pure_bind, hfar]
  cases hroot : far.root with
  | none =>
    obtain rfl := root_eq_none.mp hroot
    simp only [Option.isSome_none, Bool.false_eq_true, if_false, listFrom_nil, List.nil_append]
    exact run_climbLoop hat (root_branch ..) (Nat.lt_of_le_of_lt hlen hfuel)
  | some v =>
    have hne : far.listFrom d ≠ [] :=
      List.ne_nil_of_mem ((perm_listFrom far d).mem_iff.mpr (root_mem hroot))
    rw [List.head?_append_of_ne_nil _ hne]
    exact run_endLoop hrep hroot (Nat.le_of_lt (Nat.lt_trans (length_lt_toList_plug_branch ctx) hfuel))

end Run
end CommonProject.RBTree

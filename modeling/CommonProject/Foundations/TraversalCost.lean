import Mathlib.Algebra.BigOperators.Group.List.Basic
import CommonProject.Foundations.Height
import CommonProject.Foundations.Traversal

/-! How many links a walk over a tree in order follows, step by step and in all. -/
namespace CommonProject.Foundations.RedBlack
open ColorTree
variable {α : Type}

def ColorTree.spine (d : Dir) : ColorTree α → Nat
  | .nil => 0
  | .node _ l _ r => (match d with
    | .left => l.spine d
    | .right => r.spine d) + 1

/-- The nodes on the way up from the hole to the first one whose side `d` it comes from; one more
when there is none. -/
def climb (d : Dir) : List (Frame α) → Nat
  | [] => 1
  | f :: ctx => if f.dir = d then 1 else climb d ctx + 1

/-- The nodes passed on the way to the next node from one with the subtree `far`. -/
def stepCost (d : Dir) (out : Nat) (far : ColorTree α) : Nat :=
  if far.root.isSome then far.spine d else out

/-- The nodes in order from the side `d`, with the cost of the step from each of them. The climb
out of the tree costs `out`. -/
def stepCosts (d : Dir) : Nat → ColorTree α → List (α × Nat)
  | _, .nil => []
  | out, .node _ l x r => match d with
    | .left => stepCosts d 1 l ++ (x, stepCost d out r) :: stepCosts d (out + 1) r
    | .right => stepCosts d 1 r ++ (x, stepCost d out l) :: stepCosts d (out + 1) l

/-- The nodes on the way down to the left, else to the right. -/
def ColorTree.deepest : ColorTree α → Nat
  | .nil => 0
  | .node _ l _ r => (if l.root.isSome then l.deepest else r.deepest) + 1

def postStepCost : List (Frame α) → Nat
  | [] => 0
  | f :: _ => match f.dir with
    | .left => f.sibling.deepest
    | .right => 0

def postStepCosts : List (Frame α) → ColorTree α → List (α × Nat)
  | _, .nil => []
  | ctx, .node c l x r => postStepCosts (⟨.left, c, x, r⟩ :: ctx) l ++
      (postStepCosts (⟨.right, c, x, l⟩ :: ctx) r ++ [(x, postStepCost ctx)])

variable {d : Dir} {c : Color} {x : α} {t near far : ColorTree α} {ctx : List (Frame α)} {out : Nat}

@[simp] theorem spine_branch : (branch d c x near far).spine d = near.spine d + 1 := by
  cases d <;> rfl

private theorem stepCosts_branch : stepCosts d out (branch d c x near far) =
    stepCosts d 1 near ++ (x, stepCost d out far) :: stepCosts d (out + 1) far := by
  cases d <;> rfl

@[simp] theorem climb_same (sib : ColorTree α) : climb d (⟨d, c, x, sib⟩ :: ctx) = 1 := if_pos rfl

@[simp] theorem climb_flip (sib : ColorTree α) :
    climb d (⟨d.flip, c, x, sib⟩ :: ctx) = climb d ctx + 1 := by
  cases d <;> rfl

private theorem length_branch :
    (branch d c x near far).toList.length = near.toList.length + far.toList.length + 1 := by
  rw [← (perm_listFrom _ d).length_eq, listFrom_branch, List.length_append, List.length_cons,
    (perm_listFrom near d).length_eq, (perm_listFrom far d).length_eq, Nat.add_assoc]

/-- Induction over a tree seen from the side `d`. -/
theorem ColorTree.branch_induction {P : ColorTree α → Prop} (d : Dir) (nil : P .nil)
    (branch : ∀ c x near far, P near → P far → P (ColorTree.branch d c x near far))
    (t : ColorTree α) : P t := by
  induction t with
  | nil => exact nil
  | node c l x r ihl ihr =>
    cases d with
    | left => exact branch c x l r ihl ihr
    | right => exact branch c x r l ihr ihl

theorem spine_le_height (t : ColorTree α) (d : Dir) : t.spine d ≤ t.height := by
  induction t using ColorTree.branch_induction d with
  | nil => exact Nat.le_refl _
  | branch c x near far ih =>
    rw [spine_branch, height_branch]
    exact Nat.succ_le_succ (ih.trans (Nat.le_max_left ..))

private theorem climb_le (d : Dir) (ctx : List (Frame α)) : climb d ctx ≤ ctx.length + 1 := by
  induction ctx with
  | nil => exact Nat.le_refl _
  | cons f ctx ih =>
    rw [climb, List.length_cons]
    split <;> omega

/-- Every node of a tree is a branch at some place. -/
theorem exists_plug_branch (d : Dir) (h : x ∈ t.toList) :
    ∃ ctx c near far, t = plug ctx (branch d c x near far) := by
  obtain ⟨ctx, c, l, r, rfl⟩ := exists_plug h
  exact ⟨ctx, c, _, _, congrArg (plug ctx) (node_eq_branch d c l x r)⟩

/-- One step is at most as long as the tree is high. -/
theorem stepCost_le_height (ctx : List (Frame α)) (d : Dir) (c : Color) (x : α)
    (near far : ColorTree α) :
    stepCost d (climb d ctx) far ≤ (plug ctx (branch d c x near far)).height := by
  have hplug := length_add_height_le ctx (branch d c x near far)
  rw [height_branch] at hplug
  have hspine := (spine_le_height far d).trans (Nat.le_max_right near.height far.height)
  have hclimb := climb_le d ctx
  rw [stepCost]
  split <;> omega

theorem map_fst_stepCosts (d : Dir) (out : Nat) (t : ColorTree α) :
    (stepCosts d out t).map Prod.fst = t.listFrom d := by
  induction t using ColorTree.branch_induction d generalizing out with
  | nil => exact listFrom_nil.symm
  | branch c x near far ihn ihf =>
    rw [stepCosts_branch, listFrom_branch, List.map_append, List.map_cons, ihn, ihf]

/-- What is listed is the cost of the step at that place of the whole tree. -/
theorem mem_stepCosts (ctx : List (Frame α)) {k : Nat}
    (h : (x, k) ∈ stepCosts d (climb d ctx) t) :
    ∃ ctx' c near far, plug ctx t = plug ctx' (branch d c x near far) ∧
      k = stepCost d (climb d ctx') far := by
  induction t using ColorTree.branch_induction d generalizing ctx with
  | nil => cases h
  | branch c y near far ihn ihf =>
    rw [stepCosts_branch, List.mem_append, List.mem_cons] at h
    rcases h with h | h | h
    · have hnear : (x, k) ∈ stepCosts d (climb d (⟨d, c, y, far⟩ :: ctx)) near := by
        rwa [climb_same]
      exact ihn _ hnear
    · obtain ⟨rfl, rfl⟩ := Prod.mk.inj h
      exact ⟨ctx, c, near, far, rfl, rfl⟩
    · have hfar : (x, k) ∈ stepCosts d (climb d (⟨d.flip, c, y, near⟩ :: ctx)) far := by
        rwa [climb_flip]
      have hplace := ihf _ hfar
      rwa [plug, Frame.fill, branch_flip] at hplace

/-- Down the spine, and from there to the end of the list: two for each node, and the way out. -/
theorem sum_stepCosts (d : Dir) (out : Nat) (h : t ≠ .nil) :
    t.spine d + ((stepCosts d out t).map Prod.snd).sum + 1 = 2 * t.toList.length + out := by
  induction t using ColorTree.branch_induction d generalizing out with
  | nil => exact absurd rfl h
  | branch c x near far ihn ihf =>
    simp only [stepCosts_branch, spine_branch, List.map_append, List.map_cons, List.sum_append,
      List.sum_cons, length_branch]
    have hnear : near.spine d + ((stepCosts d 1 near).map Prod.snd).sum = 2 * near.toList.length := by
      by_cases hn : near = .nil
      · subst hn
        rfl
      · have := ihn 1 hn
        omega
    have hfar : stepCost d out far + ((stepCosts d (out + 1) far).map Prod.snd).sum =
        2 * far.toList.length + out := by
      by_cases hf : far = .nil
      · subst hf
        simp [stepCost, stepCosts, toList]
      · have hroot : far.root.isSome = true :=
          Option.isSome_iff_ne_none.mpr fun hnone => hf (root_eq_none.mp hnone)
        have := ihf (out + 1) hf
        rw [stepCost, if_pos hroot]
        omega
    omega

theorem deepest_le_height (t : ColorTree α) : t.deepest ≤ t.height := by
  induction t with
  | nil => exact Nat.le_refl _
  | node c l x r ihl ihr =>
    rw [deepest, height]
    have hmax := (Nat.max_le (a := l.height) (b := r.height)).mp (Nat.le_refl _)
    split <;> omega

theorem postStepCost_le_height (ctx : List (Frame α)) (t : ColorTree α) :
    postStepCost ctx ≤ (plug ctx t).height := by
  cases ctx with
  | nil => exact Nat.zero_le _
  | cons f ctx =>
    obtain ⟨d, c, x, sib⟩ := f
    cases d with
    | left =>
      have hplug := length_add_height_le ctx (node c t x sib)
      have hmax := Nat.le_max_right t.height sib.height
      rw [height] at hplug
      exact (deepest_le_height sib).trans ((Nat.le_succ_of_le hmax).trans ((Nat.le_add_left ..).trans hplug))
    | right => exact Nat.zero_le _

theorem map_fst_postStepCosts (ctx : List (Frame α)) (t : ColorTree α) :
    (postStepCosts ctx t).map Prod.fst = t.postorder := by
  induction t generalizing ctx with
  | nil => rfl
  | node c l x r ihl ihr =>
    rw [postStepCosts, postorder, List.map_append, List.map_append, ihl, ihr]
    rfl

theorem mem_postStepCosts {k : Nat} (h : (x, k) ∈ postStepCosts ctx t) :
    ∃ ctx' c l r, plug ctx t = plug ctx' (node c l x r) ∧ k = postStepCost ctx' := by
  induction t generalizing ctx with
  | nil => cases h
  | node c l y r ihl ihr =>
    rw [postStepCosts, List.mem_append, List.mem_append, List.mem_singleton] at h
    rcases h with h | h | h
    · exact ihl h
    · exact ihr h
    · obtain ⟨rfl, rfl⟩ := Prod.mk.inj h
      exact ⟨ctx, c, l, r, rfl, rfl⟩

/-- Every node is passed once on a way down. -/
theorem sum_postStepCosts (ctx : List (Frame α)) (h : t ≠ .nil) :
    t.deepest + ((postStepCosts ctx t).map Prod.snd).sum = t.toList.length + postStepCost ctx := by
  induction t generalizing ctx with
  | nil => exact absurd rfl h
  | node c l x r ihl ihr =>
    simp only [deepest, postStepCosts, List.map_append, List.map_cons, List.map_nil, List.sum_append,
      List.sum_cons, List.sum_nil, toList, List.length_append, List.length_cons]
    have hright : r.deepest + ((postStepCosts (⟨.right, c, x, l⟩ :: ctx) r).map Prod.snd).sum =
        r.toList.length := by
      by_cases hr : r = .nil
      · subst hr
        rfl
      · exact ihr _ hr
    by_cases hl : l = .nil
    · subst hl
      simp only [root_nil, Option.isSome_none, Bool.false_eq_true, if_false, postStepCosts,
        List.map_nil, List.sum_nil, toList, List.length_nil]
      omega
    · have hroot : l.root.isSome = true :=
        Option.isSome_iff_ne_none.mpr fun hnone => hl (root_eq_none.mp hnone)
      have hleft : l.deepest + ((postStepCosts (⟨.left, c, x, r⟩ :: ctx) l).map Prod.snd).sum =
        l.toList.length + r.deepest := ihl _ hl
      rw [if_pos hroot]
      omega

end CommonProject.Foundations.RedBlack

import Mathlib.Algebra.BigOperators.Group.List.Basic
import Mathlib.Logic.Function.Basic
import CommonProject.Foundations.Balance

/-! Trees whose nodes also hold the product of a value over their subtree, in any monoid: sizes, sums,
greatest ends of intervals. The order of the nodes determines all products. -/
namespace CommonProject.Foundations.RedBlack
open ColorTree
variable {α V : Type} [Monoid V] (val aug : α → V)

def product (t : ColorTree α) : V := (t.toList.map val).prod

/-- A value between what is on its side `d` and what is on the other one. -/
def combine (d : Dir) (near v far : V) : V :=
  match d with
  | .left => near * v * far
  | .right => far * v * near

def Summed : ColorTree α → Prop
  | .nil => True
  | .node c l x r => aug x = product val (.node c l x r) ∧ Summed l ∧ Summed r

/-- The nodes around a hole hold their products, if `v` is the product over what is in the hole. -/
def SummedAround : V → List (Frame α) → Prop
  | _, [] => True
  | v, f :: ctx => aug f.value = combine f.dir v (val f.value) (product val f.sibling) ∧
      Summed val aug f.sibling ∧ SummedAround (aug f.value) ctx

/-- The innermost node does not know of a change in the hole yet. -/
def Stale : List (Frame α) → Prop
  | [] => True
  | f :: ctx => Summed val aug f.sibling ∧ SummedAround val aug (aug f.value) ctx

/-- What is held at the end of a link. -/
def augOf (p : Option α) : V := p.elim 1 aug

variable {val aug} {aug' : α → V} {d : Dir} {c cy cz : Color} {x y z : α}
  {t near far s u : ColorTree α} {ctx : List (Frame α)} {f : Frame α} {v : V}

@[simp] theorem product_nil : product val (.nil : ColorTree α) = 1 := rfl

@[simp] theorem product_paint : product val (t.paint c) = product val t := by
  rw [product, product, toList_paint]

@[simp] theorem product_branch : product val (branch d c x near far) =
    combine d (product val near) (val x) (product val far) := by
  cases d <;> simp [product, branch, toList, combine, mul_assoc]

/-- A rotation does not change the product. -/
theorem combine_assoc (d : Dir) (a b e v w : V) :
    combine d (combine d a v b) w e = combine d a v (combine d b w e) := by
  cases d <;> simp [combine, mul_assoc]

theorem summed_branch : Summed val aug (branch d c x near far) ↔
    aug x = combine d (product val near) (val x) (product val far) ∧ Summed val aug near ∧
      Summed val aug far := by
  rw [← product_branch (c := c)]
  cases d
  · exact Iff.rfl
  · exact and_congr_right fun _ => and_comm

@[simp] theorem summed_paint : Summed val aug (t.paint c) ↔ Summed val aug t := by
  cases t with
  | nil => exact Iff.rfl
  | node c' l x r => exact and_congr_left fun _ => by rw [← product_paint (c := c)]; rfl

theorem summed_congr (h : ∀ x ∈ t.toList, aug' x = aug x) : Summed val aug' t ↔ Summed val aug t := by
  induction t with
  | nil => exact Iff.rfl
  | node c l x r ihl ihr =>
    simp only [toList, List.mem_append, List.mem_cons] at h
    rw [Summed, Summed, h x (.inr (.inl rfl)), ihl fun y hy => h y (.inl hy),
      ihr fun y hy => h y (.inr (.inr hy))]

/-- The root of a subtree holds its product. -/
theorem Summed.augOf_root (h : Summed val aug t) : augOf aug t.root = product val t := by
  cases t with
  | nil => rfl
  | node => exact h.1

/-- The tree around a hole, one frame at a time. -/
theorem summed_plug : Summed val aug (plug ctx t) ↔
    Summed val aug t ∧ SummedAround val aug (product val t) ctx := by
  induction ctx generalizing t with
  | nil => exact (and_iff_left trivial).symm
  | cons f ctx ih =>
    rw [plug, ih, Frame.fill, summed_branch, product_branch, SummedAround]
    constructor
    · rintro ⟨⟨hf, ht, hs⟩, hctx⟩
      exact ⟨ht, hf, hs, hf ▸ hctx⟩
    · rintro ⟨ht, hf, hs, hctx⟩
      exact ⟨⟨hf, ht, hs⟩, hf ▸ hctx⟩

theorem SummedAround.stale (h : SummedAround val aug v ctx) : Stale val aug ctx := by
  cases ctx with
  | nil => trivial
  | cons f ctx => exact h.2

section Update
variable [DecidableEq α]

@[simp] theorem summed_update (h : x ∉ t.toList) :
    Summed val (Function.update aug x v) t ↔ Summed val aug t :=
  summed_congr fun _ hy => Function.update_of_ne (ne_of_mem_of_not_mem hy h) ..

theorem augOf_update (h : x ∉ t.toList) : augOf (Function.update aug x v) t.root = augOf aug t.root := by
  cases t with
  | nil => rfl
  | node c l y r =>
    refine Function.update_of_ne ?_ ..
    rintro rfl
    exact h (by simp [toList])

end Update
end CommonProject.Foundations.RedBlack

import Mathlib.Data.List.Nodup
import CommonProject.Foundations.RedBlack

/-! The nodes of a tree in order from either side, and what follows after a place in the tree. -/
namespace CommonProject.Foundations.RedBlack
open ColorTree
variable {α : Type}

def ColorTree.listFrom (t : ColorTree α) : Dir → List α
  | .left => t.toList
  | .right => t.toList.reverse

/-- What comes after the hole on the way from the side `d`. -/
def beyond (d : Dir) : List (Frame α) → List α
  | [] => []
  | f :: ctx => (if f.dir = d then f.value :: f.sibling.listFrom d else []) ++ beyond d ctx

variable {d : Dir} {c : Color} {x : α} {t near far : ColorTree α} {ctx : List (Frame α)}

@[simp] theorem listFrom_nil : (nil : ColorTree α).listFrom d = [] := by cases d <;> rfl

theorem listFrom_branch :
    (branch d c x near far).listFrom d = near.listFrom d ++ x :: far.listFrom d := by
  cases d <;> simp [listFrom, branch, toList]

theorem perm_listFrom (t : ColorTree α) (d : Dir) : (t.listFrom d).Perm t.toList := by
  cases d
  · exact List.Perm.refl _
  · exact List.reverse_perm _

theorem Dir.eq_flip_of_ne {d d' : Dir} (h : d ≠ d') : d = d'.flip := by
  cases d <;> cases d' <;> first | rfl | exact absurd rfl h

/-- A node is at one place of the list. -/
theorem append_cons_unique {l a b a' b' : List α} (hnd : l.Nodup) (h : l = b ++ x :: a)
    (h' : l = b' ++ x :: a') : b = b' ∧ a = a' := by
  rw [h, List.nodup_middle, List.nodup_cons, List.mem_append, not_or] at hnd
  obtain ⟨hb, -, ha⟩ := (List.append_cons_inj_of_notMem hnd.1.1 hnd.1.2).mp (h.symm.trans h')
  exact ⟨hb, ha⟩

private theorem listFrom_plug (d : Dir) (ctx : List (Frame α)) (t : ColorTree α) :
    ∃ b, (plug ctx t).listFrom d = b ++ (t.listFrom d ++ beyond d ctx) := by
  induction ctx generalizing t with
  | nil => exact ⟨[], by simp [plug, beyond]⟩
  | cons f ctx ih =>
    obtain ⟨b, hb⟩ := ih (f.fill t)
    obtain ⟨d', c, x, sib⟩ := f
    rw [plug, hb, beyond]
    by_cases hd : d' = d
    · subst hd
      exact ⟨b, by simp [Frame.fill, listFrom_branch]⟩
    · obtain rfl := Dir.eq_flip_of_ne hd
      refine ⟨b ++ (sib.listFrom d ++ [x]), ?_⟩
      rw [Frame.fill, branch_flip, listFrom_branch, if_neg hd]
      simp

/-- What comes after a node. -/
theorem listFrom_plug_branch (ctx : List (Frame α)) :
    ∃ b, (plug ctx (branch d c x near far)).listFrom d =
      b ++ x :: (far.listFrom d ++ beyond d ctx) := by
  obtain ⟨b, hb⟩ := listFrom_plug d ctx (branch d c x near far)
  refine ⟨b ++ near.listFrom d, ?_⟩
  rw [hb, listFrom_branch]
  simp

/-- Taking a node out of the list leaves the others as they are, from either side. -/
theorem listFrom_erase [DecidableEq α] {t' : ColorTree α} {a b : List α} (hnd : t.toList.Nodup)
    (hlist : t.listFrom d = b ++ x :: a) (h : t'.toList = t.toList.erase x) :
    t'.listFrom d = b ++ a := by
  have herase : ∀ {l a b : List α}, l.Nodup → l = b ++ x :: a → l.erase x = b ++ a := by
    rintro l a b hnd rfl
    rw [List.nodup_middle, List.nodup_cons, List.mem_append, not_or] at hnd
    rw [List.erase_append_right _ hnd.1.1, List.erase_cons_head]
  cases d with
  | left => exact h.trans (herase hnd hlist)
  | right =>
    have hrev : t.toList = a.reverse ++ x :: b.reverse := by
      rw [← List.reverse_reverse t.toList]
      exact (congrArg List.reverse hlist).trans (by simp)
    rw [listFrom, h, herase hnd hrev]
    simp

def ColorTree.postorder : ColorTree α → List α
  | .nil => []
  | .node _ l x r => l.postorder ++ (r.postorder ++ [x])

/-- What is still to come in post-order when the tree in the hole is done. -/
def onward : List (Frame α) → List α
  | [] => []
  | f :: ctx => (match f.dir with
    | .left => f.sibling.postorder
    | .right => []) ++ f.value :: onward ctx

theorem perm_postorder (t : ColorTree α) : t.postorder.Perm t.toList := by
  induction t with
  | nil => exact .refl _
  | node c l x r ihl ihr =>
    exact ihl.append ((List.perm_append_singleton x _).trans (ihr.cons x))

theorem postorder_ne_nil (h : t.root = some x) : t.postorder ≠ [] := by
  cases t with
  | nil => cases h
  | node c l y r => simp [postorder]

theorem postorder_plug (ctx : List (Frame α)) (t : ColorTree α) :
    ∃ b, (plug ctx t).postorder = b ++ (t.postorder ++ onward ctx) := by
  induction ctx generalizing t with
  | nil => exact ⟨[], by simp [plug, onward]⟩
  | cons f ctx ih =>
    obtain ⟨b, hb⟩ := ih (f.fill t)
    obtain ⟨d, c, x, sib⟩ := f
    rw [plug, hb, onward]
    cases d with
    | left => exact ⟨b, by simp [Frame.fill, branch, postorder]⟩
    | right => exact ⟨b ++ sib.postorder, by simp [Frame.fill, branch, postorder]⟩

/-- The nodes below a node come before it. -/
theorem postorder_sublist {y : α} {l r : ColorTree α} (ctx : List (Frame α))
    (hy : y ∈ l.toList ∨ y ∈ r.toList) :
    [y, x].Sublist (plug ctx (node c l x r)).postorder := by
  obtain ⟨b, hb⟩ := postorder_plug ctx (node c l x r)
  have hmem : y ∈ b ++ (l.postorder ++ r.postorder) := by
    rw [← (perm_postorder l).mem_iff, ← (perm_postorder r).mem_iff] at hy
    simp only [List.mem_append]
    exact .inr hy
  have hlist : (plug ctx (node c l x r)).postorder =
      (b ++ (l.postorder ++ r.postorder)) ++ ([x] ++ onward ctx) := by
    rw [hb]
    simp [postorder]
  rw [hlist]
  exact (List.singleton_sublist.mpr hmem).append (List.sublist_append_left ..)

end CommonProject.Foundations.RedBlack

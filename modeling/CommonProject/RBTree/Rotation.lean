import CommonProject.RBTree.Sides

/-! The rotations of `rbtree.c`, as a change of the tree in memory. -/
namespace CommonProject.RBTree
open Foundations.RedBlack Foundations.RedBlack.ColorTree
variable {α W ρ : Type}

section Same
variable {m m' m'' : Memory α W ρ} {x y : α} {d : Dir} {v : Option α} {w : W}

@[simp] theorem SameAt.refl (m : Memory α W ρ) (y : α) : SameAt m m y := ⟨rfl, rfl, rfl⟩

theorem sameAt_congr_right (h : SameAt m' m'' y) : SameAt m m'' y ↔ SameAt m m' y := by
  simp only [SameAt, h.1, h.2.1, h.2.2]

variable [DecidableEq α]

@[simp] theorem sameAt_setParentColor_right (h : y ≠ x) :
    SameAt m (m'.setParentColor x w) y ↔ SameAt m m' y :=
  sameAt_congr_right (sameAt_setParentColor h)

@[simp] theorem sameAt_setChild_right (h : y ≠ x) :
    SameAt m (m'.setChild d x v) y ↔ SameAt m m' y := sameAt_congr_right (sameAt_setChild h)

@[simp] theorem sameAt_adopt_right [Word α W] {s : ColorTree α} {p : Option α} {c : Color}
    (h : y ∉ s.toList) : SameAt m (m'.adopt s.root p c) y ↔ SameAt m m' y :=
  sameAt_congr_right (sameAt_adopt h)

variable [DecidableEq ρ] {root : ρ} {ctx : List (Frame α)}

@[simp] theorem sameAt_write_right (h : y ∉ around ctx) :
    SameAt m (m'.write v (slot root ctx)) y ↔ SameAt m m' y := sameAt_congr_right (sameAt_write h)

@[simp] theorem rbNode_write_ne {r : ρ} (h : r ≠ root) :
    (m.write v (slot root ctx)).rbNode r = m.rbNode r := by
  cases ctx with
  | nil => exact Function.update_of_ne h ..
  | cons f ctx => rw [write_slot_cons, Memory.rbNode_setChild]

end Same

section Places
variable [Word α W] {m m' m'' : Memory α W ρ} {root : ρ} {t t' : ColorTree α} {f : Frame α}
  {ctx ctx' : List (Frame α)}

/-- One step up: the frame becomes part of the tree in the hole. -/
theorem at_fill : At m root (f :: ctx) t ↔ At m root ctx (f.fill t) := by
  constructor
  · rintro ⟨⟨hw, hs, hr, hctx, hl⟩, hlink, hrep, hnd⟩
    rw [read_slot_cons] at hlink
    exact ⟨hctx, by rw [hl, Frame.fill, root_branch], rep_branch.mpr ⟨hw, hlink, hs, hrep, hr⟩, hnd⟩
  · rintro ⟨hctx, hl, hrep, hnd⟩
    obtain ⟨hw, hlink, hs, hrep, hr⟩ := rep_branch.mp hrep
    rw [Frame.fill, root_branch] at hl
    exact ⟨⟨hw, hs, hr, hctx, hl⟩, by rw [read_slot_cons, hlink], hrep, hnd⟩

theorem at_plug : At m root ctx t ↔ At m root [] (plug ctx t) := by
  induction ctx generalizing t with
  | nil => rfl
  | cons f ctx ih => exact at_fill.trans ih

theorem moved_fill : Moved m m' root (f :: ctx) t ↔ Moved m m' root ctx (f.fill t) :=
  ⟨fun h => ⟨at_fill.mp h.toAt, h.outside, h.roots⟩,
    fun h => ⟨at_fill.mpr h.toAt, h.outside, h.roots⟩⟩

theorem moved_plug : Moved m m' root ctx t ↔ Moved m m' root [] (plug ctx t) :=
  ⟨fun h => ⟨at_plug.mp h.toAt, h.outside, h.roots⟩,
    fun h => ⟨at_plug.mpr h.toAt, h.outside, h.roots⟩⟩

theorem At.moved_refl (h : At m root ctx t) : Moved m m root ctx t :=
  ⟨h, fun _ _ => .refl .., fun _ _ => rfl⟩

theorem Moved.trans (h : Moved m m' root ctx t) (h' : Moved m' m'' root ctx' t')
    (horder : (plug ctx' t').toList = (plug ctx t).toList) : Moved m m'' root ctx' t' :=
  ⟨h'.toAt, fun y hy => (sameAt_congr_right (h'.outside y hy)).mpr (h.outside y (horder ▸ hy)),
    fun r hr => (h'.roots r hr).trans (h.roots r hr)⟩

/-- No node is new in the hole. -/
theorem At.moved_of_subset (h : At m root ctx t) (hnd : t'.toList.Nodup)
    (hsub : t'.toList ⊆ t.toList) (hctx : RepCtx m' root ctx)
    (hlink : m'.read (slot root ctx) = t'.root) (hrep : Rep m' (above ctx) t')
    (hout : ∀ y, y ∉ t'.toList → y ∉ around ctx → SameAt m m' y)
    (hroots : ∀ r, r ≠ root → m'.rbNode r = m.rbNode r) : Moved m m' root ctx t' := by
  have hold := nodup_plug.mp h.nodup
  refine ⟨⟨hctx, hlink, hrep, nodup_plug.mpr ⟨hnd, hold.2.1, ?_⟩⟩, fun y hy => ?_, hroots⟩
  · exact List.disjoint_of_subset_left hsub hold.2.2
  · rw [mem_plug, not_or] at hy
    exact hout y hy.1 hy.2

/-- The nodes stay the same and in order. -/
theorem At.moved (h : At m root ctx t) (horder : t'.toList = t.toList) (hctx : RepCtx m' root ctx)
    (hlink : m'.read (slot root ctx) = t'.root) (hrep : Rep m' (above ctx) t')
    (hout : ∀ y, y ∉ t.toList → y ∉ around ctx → SameAt m m' y)
    (hroots : ∀ r, r ≠ root → m'.rbNode r = m.rbNode r) : Moved m m' root ctx t' :=
  h.moved_of_subset (horder ▸ (nodup_plug.mp h.nodup).1) (horder ▸ List.Subset.refl _) hctx hlink hrep
    (horder ▸ hout) hroots

end Places

section Rotations
variable [Word α W] [DecidableEq α] [DecidableEq ρ] {m : Memory α W ρ} {root : ρ} {d : Dir}
  {x y z : α} {a b s t u : ColorTree α} {ctx : List (Frame α)} {c cx cy : Color}

/-- The node `y` takes the place of its parent `z`. -/
theorem rotate_moved (h : At m root ctx (branch d c z (branch d cy y t s) u)) (ct cs cz : Color) :
    Moved m ((((((m.setChild d z s.root).setChild d.flip y (some z)).adopt t.root (some y) ct).adopt
      s.root (some z) cs).setParentColor y (Word.pack (above ctx) c)).setParentColor z
      (Word.pack (some y) cz) |>.write (some y) (slot root ctx)) root ctx
      (branch d c y (t.paint ct) (branch d cz z (s.paint cs) u)) := by
  have hnd := h.nodup
  have hrep := h.rep
  have hctx := h.repCtx
  simp only [nodup_plug, nodup_branch, disjoint_branch, mem_branch, not_or] at hnd
  simp only [rep_branch, root_branch] at hrep
  have ht : Kids m t := hrep.2.2.2.1.2.2.2.1.kids
  have hs : Kids m s := hrep.2.2.2.1.2.2.2.2.kids
  apply h.moved
  case horder => cases d <;> simp [branch, toList]
  case hctx => simp [*]
  case hlink => simp
  case hrep => simp [*, rep_branch]
  case hout =>
    intro w hw hw'
    simp only [mem_branch, not_or] at hw
    simp [hw, hw']
  case hroots =>
    intro r hr
    simp [hr]

end Rotations
end CommonProject.RBTree

import Mathlib.Data.List.Nodup
import CommonProject.RBTree.Code

/-! Which tree the memory holds, at a root or around a place in the tree. -/
namespace CommonProject.RBTree
open Foundations.RedBlack Foundations.RedBlack.ColorTree
variable {α W ρ : Type} [Word α W]

namespace Memory
variable {m : Memory α W ρ} {x y : α} {d : Dir} {w : W} {v : Option α}

def child (m : Memory α W ρ) : Dir → α → Option α
  | .left => m.rbLeft
  | .right => m.rbRight

variable [DecidableEq α] [DecidableEq ρ]

def setChild (m : Memory α W ρ) : Dir → α → Option α → Memory α W ρ
  | .left => m.setLeft
  | .right => m.setRight

/-- `rb_set_parent_color`, when there is a node. -/
def adopt (m : Memory α W ρ) (t p : Option α) (c : Color) : Memory α W ρ :=
  match t with
  | none => m
  | some x => m.setParentColor x (Word.pack p c)

omit [DecidableEq ρ]

@[simp] theorem adopt_none (m : Memory α W ρ) (p : Option α) (c : Color) :
    m.adopt none p c = m := rfl

@[simp] theorem adopt_some (m : Memory α W ρ) (x : α) (p : Option α) (c : Color) :
    m.adopt (some x) p c = m.setParentColor x (Word.pack p c) := rfl

theorem setChild_adopt {p t : Option α} {c : Color} :
    (m.adopt t p c).setChild d x v = (m.setChild d x v).adopt t p c := by
  cases t <;> cases d <;> rfl

theorem adopt_comm {s t p q : Option α} {c c' : Color} (h : ∀ x, t = some x → s ≠ some x) :
    (m.adopt t p c).adopt s q c' = (m.adopt s q c').adopt t p c := by
  cases t with
  | none => rfl
  | some x =>
    cases s with
    | none => rfl
    | some y =>
      have hxy : y ≠ x := fun hyx => h x rfl (congrArg some hyx)
      exact congrArg (fun f => { m with rbParentColor := f }) (Function.update_comm hxy ..).symm

omit [Word α W]

@[simp] theorem setParentColor_self : (m.setParentColor x w).rbParentColor x = w :=
  Function.update_self ..

@[simp] theorem setParentColor_ne (h : y ≠ x) :
    (m.setParentColor x w).rbParentColor y = m.rbParentColor y := Function.update_of_ne h ..

@[simp] theorem rbLeft_setParentColor : (m.setParentColor x w).rbLeft = m.rbLeft := rfl

@[simp] theorem rbRight_setParentColor : (m.setParentColor x w).rbRight = m.rbRight := rfl

@[simp] theorem setParentColor_ne' (h : x ≠ y) :
    (m.setParentColor x w).rbParentColor y = m.rbParentColor y := setParentColor_ne h.symm

theorem setParentColor_eq_self (h : m.rbParentColor x = w) : m.setParentColor x w = m := by
  subst h
  exact congrArg (fun f => { m with rbParentColor := f }) (Function.update_eq_self ..)

@[simp] theorem child_setParentColor : (m.setParentColor x w).child d = m.child d := by
  cases d <;> rfl

@[simp] theorem rbNode_setParentColor : (m.setParentColor x w).rbNode = m.rbNode := rfl

@[simp] theorem rbParentColor_setChild : (m.setChild d x v).rbParentColor = m.rbParentColor := by
  cases d <;> rfl

@[simp] theorem rbNode_setChild : (m.setChild d x v).rbNode = m.rbNode := by cases d <;> rfl

@[simp] theorem child_setChild_self : (m.setChild d x v).child d x = v := by
  cases d <;> exact Function.update_self ..

@[simp] theorem child_setChild_ne (h : y ≠ x) (d' : Dir) :
    (m.setChild d x v).child d' y = m.child d' y := by
  cases d <;> cases d' <;> first | rfl | exact Function.update_of_ne h ..

@[simp] theorem child_setChild_ne' (h : x ≠ y) (d' : Dir) :
    (m.setChild d x v).child d' y = m.child d' y := child_setChild_ne h.symm d'

@[simp] theorem child_flip_setChild : (m.setChild d x v).child d.flip y = m.child d.flip y := by
  cases d <;> rfl

@[simp] theorem child_setChild_flip : (m.setChild d.flip x v).child d y = m.child d y := by
  cases d <;> rfl

end Memory

/-- Where the root of the tree in the hole is linked from. -/
def slot (root : ρ) : List (Frame α) → Slot α ρ
  | [] => .rbNode root
  | f :: _ => match f.dir with
    | .left => .rbLeft f.value
    | .right => .rbRight f.value

def above : List (Frame α) → Option α
  | [] => none
  | f :: _ => some f.value

def around : List (Frame α) → List α
  | [] => []
  | f :: ctx => f.value :: f.sibling.toList ++ around ctx

def Rep (m : Memory α W ρ) : Option α → ColorTree α → Prop
  | _, .nil => True
  | p, .node c l x r => m.rbParentColor x = Word.pack p c ∧ m.rbLeft x = l.root ∧
      m.rbRight x = r.root ∧ Rep m (some x) l ∧ Rep m (some x) r

/-- The subtrees of the root, whatever its own parent and colour are. -/
def Kids (m : Memory α W ρ) : ColorTree α → Prop
  | .nil => True
  | .node _ l x r => m.rbLeft x = l.root ∧ m.rbRight x = r.root ∧ Rep m (some x) l ∧
      Rep m (some x) r

/-- The memory holds the context, up to what is linked in the hole. -/
def RepCtx (m : Memory α W ρ) (root : ρ) : List (Frame α) → Prop
  | [] => True
  | f :: ctx => m.rbParentColor f.value = Word.pack (above ctx) f.color ∧
      m.child f.dir.flip f.value = f.sibling.root ∧ Rep m (some f.value) f.sibling ∧
      RepCtx m root ctx ∧ m.read (slot root ctx) = some f.value

/-- The memory holds `t` in the hole of the context, and every node is at one place only. -/
structure At (m : Memory α W ρ) (root : ρ) (ctx : List (Frame α)) (t : ColorTree α) : Prop where
  repCtx : RepCtx m root ctx
  link : m.read (slot root ctx) = t.root
  rep : Rep m (above ctx) t
  nodup : (plug ctx t).toList.Nodup

section Shape
variable {m : Memory α W ρ} {root : ρ} {p q : Option α} {d : Dir} {c c' : Color} {x y : α}
  {t near far : ColorTree α} {ctx : List (Frame α)} {f : Frame α}

theorem rep_branch : Rep m p (branch d c x near far) ↔ m.rbParentColor x = Word.pack p c ∧
    m.child d x = near.root ∧ m.child d.flip x = far.root ∧ Rep m (some x) near ∧
    Rep m (some x) far := by
  cases d
  · rfl
  · simp only [branch, Rep, Memory.child, Dir.flip]
    tauto

theorem Rep.kids (h : Rep m p t) : Kids m t := by
  cases t with
  | nil => trivial
  | node => exact h.2

/-- The memory holds one tree only below a link. -/
theorem rep_unique {t' : ColorTree α} {p' : Option α} (h : Rep m p t) (h' : Rep m p' t')
    (hroot : t.root = t'.root) : t = t' := by
  induction t generalizing t' p p' with
  | nil => exact (root_eq_none.mp hroot.symm).symm
  | node c l x r ihl ihr =>
    cases t' with
    | nil => cases hroot
    | node c' l' x' r' =>
      obtain rfl : x = x' := Option.some.inj hroot
      obtain ⟨hw, hl, hr, hrl, hrr⟩ := h
      obtain ⟨hw', hl', hr', hrl', hrr'⟩ := h'
      have hcolor := congrArg (Word.color α) (hw.symm.trans hw')
      rw [Word.color_pack, Word.color_pack] at hcolor
      rw [hcolor, ihl hrl hrl' (hl.symm.trans hl'), ihr hrr hrr' (hr.symm.trans hr')]

theorem mem_branch : y ∈ (branch d c x near far).toList ↔
    y = x ∨ y ∈ near.toList ∨ y ∈ far.toList := by
  cases d
  · simp only [branch, toList, List.mem_append, List.mem_cons]
    tauto
  · simp only [branch, toList, List.mem_append, List.mem_cons]
    tauto

theorem perm_branch : (branch d c x near far).toList.Perm (x :: (near.toList ++ far.toList)) := by
  cases d
  · exact List.perm_middle
  · exact List.perm_middle.trans (List.perm_append_comm.cons x)

theorem root_mem (h : t.root = some x) : x ∈ t.toList := by
  cases t with
  | nil => cases h
  | node c l y r =>
    cases h
    simp [toList]

omit [Word α W] in
theorem write_slot_cons [DecidableEq α] [DecidableEq ρ] (m : Memory α W ρ) (root : ρ) (f : Frame α)
    (ctx : List (Frame α)) (v : Option α) :
    m.write v (slot root (f :: ctx)) = m.setChild f.dir f.value v := by
  obtain ⟨d, c, x, sib⟩ := f
  cases d <;> rfl

omit [Word α W] in
theorem read_slot_cons (m : Memory α W ρ) (root : ρ) (f : Frame α) (ctx : List (Frame α)) :
    m.read (slot root (f :: ctx)) = m.child f.dir f.value := by
  obtain ⟨d, c, x, sib⟩ := f
  cases d <;> rfl

theorem above_cons (f : Frame α) (ctx : List (Frame α)) : above (f :: ctx) = some f.value := rfl

theorem root_ne (h : x ∉ t.toList) : some x ≠ t.root := fun hx => h (root_mem hx.symm)

theorem mem_plug : y ∈ (plug ctx t).toList ↔ y ∈ t.toList ∨ y ∈ around ctx := by
  induction ctx generalizing t with
  | nil => simp [plug, around]
  | cons f ctx ih =>
    rw [plug, ih, Frame.fill, mem_branch]
    simp only [around, List.mem_append, List.mem_cons]
    tauto

theorem perm_plug : (plug ctx t).toList.Perm (t.toList ++ around ctx) := by
  induction ctx generalizing t with
  | nil => simp [plug, around]
  | cons f ctx ih =>
    apply ih.trans
    rw [Frame.fill, around, List.cons_append]
    refine (perm_branch.append_right _).trans ?_
    rw [List.cons_append, List.append_assoc]
    exact List.perm_middle.symm

theorem length_le_around (ctx : List (Frame α)) : ctx.length ≤ (around ctx).length := by
  induction ctx with
  | nil => exact Nat.zero_le _
  | cons f ctx ih =>
    rw [around, List.length_append, List.length_cons, List.length_cons]
    omega

theorem length_le_toList_plug (ctx : List (Frame α)) (t : ColorTree α) :
    ctx.length ≤ (plug ctx t).toList.length := by
  rw [perm_plug.length_eq, List.length_append]
  exact Nat.le_trans (length_le_around ctx) (Nat.le_add_left ..)

theorem length_lt_toList_plug_branch (ctx : List (Frame α)) :
    far.toList.length < (plug ctx (branch d c x near far)).toList.length := by
  rw [perm_plug.length_eq, List.length_append, perm_branch.length_eq, List.length_cons,
    List.length_append]
  omega

theorem root_plug_mem (h : (plug (f :: ctx) t).root = some x) : x ∈ around (f :: ctx) := by
  induction ctx generalizing f t with
  | nil =>
    simp only [plug, Frame.fill, root_branch, Option.some.injEq] at h
    simp [around, h]
  | cons g ctx ih =>
    have hmem := ih h
    simp only [around, List.mem_append, List.mem_cons] at hmem ⊢
    tauto

theorem nodup_plug : (plug ctx t).toList.Nodup ↔
    t.toList.Nodup ∧ (around ctx).Nodup ∧ t.toList.Disjoint (around ctx) := by
  rw [perm_plug.nodup_iff, List.nodup_append']

theorem disjoint_branch {L : List α} : (branch d c x near far).toList.Disjoint L ↔
    x ∉ L ∧ near.toList.Disjoint L ∧ far.toList.Disjoint L := by
  rw [perm_branch.disjoint_left, List.disjoint_cons_left, List.disjoint_append_left]

theorem disjoint_branch_right {L : List α} : L.Disjoint (branch d c x near far).toList ↔
    x ∉ L ∧ L.Disjoint near.toList ∧ L.Disjoint far.toList := by
  rw [perm_branch.disjoint_right, List.disjoint_cons_right, List.disjoint_append_right]

theorem nodup_branch : (branch d c x near far).toList.Nodup ↔ x ∉ near.toList ∧ x ∉ far.toList ∧
    near.toList.Nodup ∧ far.toList.Nodup ∧ near.toList.Disjoint far.toList := by
  rw [perm_branch.nodup_iff, List.nodup_cons, List.nodup_append', List.mem_append]
  tauto

end Shape

section Frames
variable {m m' : Memory α W ρ} {root : ρ} {p q : Option α} {d : Dir} {c : Color} {x y : α} {w : W}
  {s t : ColorTree α} {ctx : List (Frame α)} {v : Option α}

def SameAt (m m' : Memory α W ρ) (x : α) : Prop :=
  m'.rbParentColor x = m.rbParentColor x ∧ m'.rbLeft x = m.rbLeft x ∧ m'.rbRight x = m.rbRight x

omit [Word α W] in
theorem SameAt.child (h : SameAt m m' x) (d : Dir) : m'.child d x = m.child d x := by
  cases d
  · exact h.2.1
  · exact h.2.2

theorem rep_congr (h : ∀ x ∈ t.toList, SameAt m m' x) : Rep m' p t ↔ Rep m p t := by
  induction t generalizing p with
  | nil => rfl
  | node c l x r ihl ihr =>
    simp only [toList, List.mem_append, List.mem_cons] at h
    obtain ⟨h1, h2, h3⟩ := h x (.inr (.inl rfl))
    simp only [Rep, h1, h2, h3, ihl fun y hy => h y (.inl hy), ihr fun y hy => h y (.inr (.inr hy))]

private theorem kids_congr (h : ∀ x ∈ t.toList, SameAt m m' x) : Kids m' t ↔ Kids m t := by
  cases t with
  | nil => rfl
  | node c l x r =>
    simp only [toList, List.mem_append, List.mem_cons] at h
    obtain ⟨-, h2, h3⟩ := h x (.inr (.inl rfl))
    simp only [Kids, h2, h3, rep_congr fun y hy => h y (.inl hy),
      rep_congr fun y hy => h y (.inr (.inr hy))]

omit [Word α W] in
private theorem read_slot_congr (h : ∀ x ∈ around ctx, SameAt m m' x)
    (hr : m'.rbNode root = m.rbNode root) :
    m'.read (slot root ctx) = m.read (slot root ctx) := by
  cases ctx with
  | nil => exact hr
  | cons f ctx =>
    have hf := h f.value (by simp [around])
    obtain ⟨d, c, x, sib⟩ := f
    cases d
    · exact hf.2.1
    · exact hf.2.2

private theorem repCtx_congr (h : ∀ x ∈ around ctx, SameAt m m' x)
    (hr : m'.rbNode root = m.rbNode root) : RepCtx m' root ctx ↔ RepCtx m root ctx := by
  induction ctx with
  | nil => rfl
  | cons f ctx ih =>
    simp only [around, List.mem_append, List.mem_cons] at h
    have hf := h f.value (.inl (.inl rfl))
    have hctx : ∀ x ∈ around ctx, SameAt m m' x := fun x hx => h x (.inr hx)
    simp only [RepCtx, hf.1, hf.child, rep_congr fun y hy => h y (.inl (.inr hy)), ih hctx,
      read_slot_congr hctx hr]

section Nodes
variable [DecidableEq α]

omit [Word α W] in
theorem sameAt_setParentColor (h : y ≠ x) : SameAt m (m.setParentColor x w) y :=
  ⟨Memory.setParentColor_ne h, rfl, rfl⟩

omit [Word α W] in
theorem sameAt_setChild (h : y ≠ x) : SameAt m (m.setChild d x v) y :=
  ⟨by simp, Memory.child_setChild_ne h .left, Memory.child_setChild_ne h .right⟩

theorem sameAt_adopt (h : y ∉ s.toList) : SameAt m (m.adopt s.root p c) y := by
  cases s with
  | nil => exact ⟨rfl, rfl, rfl⟩
  | node _ l x r => exact sameAt_setParentColor fun hy => h (hy ▸ root_mem rfl)

@[simp] theorem rbNode_adopt : (m.adopt v p c).rbNode = m.rbNode := by cases v <;> rfl

@[simp] theorem child_adopt : (m.adopt v p c).child d = m.child d := by cases v <;> simp [Memory.adopt]

@[simp] theorem rbParentColor_adopt (h : x ∉ s.toList) :
    (m.adopt s.root p c).rbParentColor x = m.rbParentColor x := (sameAt_adopt h).1

@[simp] theorem rep_setParentColor (h : x ∉ t.toList) :
    Rep (m.setParentColor x w) p t ↔ Rep m p t :=
  rep_congr fun _ hy => sameAt_setParentColor fun hyx => h (hyx ▸ hy)

@[simp] theorem rep_setChild (h : x ∉ t.toList) : Rep (m.setChild d x v) p t ↔ Rep m p t :=
  rep_congr fun _ hy => sameAt_setChild fun hyx => h (hyx ▸ hy)

@[simp] theorem rep_adopt (h : s.toList.Disjoint t.toList) :
    Rep (m.adopt s.root q c) p t ↔ Rep m p t :=
  rep_congr fun _ hy => sameAt_adopt fun hs => h hs hy

@[simp] theorem rep_adopt' (h : t.toList.Disjoint s.toList) :
    Rep (m.adopt s.root q c) p t ↔ Rep m p t := rep_adopt (List.disjoint_symm h)

@[simp] theorem kids_setParentColor (h : x ∉ t.toList) :
    Kids (m.setParentColor x w) t ↔ Kids m t :=
  kids_congr fun _ hy => sameAt_setParentColor fun hyx => h (hyx ▸ hy)

@[simp] theorem kids_setChild (h : x ∉ t.toList) : Kids (m.setChild d x v) t ↔ Kids m t :=
  kids_congr fun _ hy => sameAt_setChild fun hyx => h (hyx ▸ hy)

@[simp] theorem kids_adopt (h : s.toList.Disjoint t.toList) :
    Kids (m.adopt s.root q c) t ↔ Kids m t :=
  kids_congr fun _ hy => sameAt_adopt fun hs => h hs hy

@[simp] theorem kids_adopt' (h : t.toList.Disjoint s.toList) :
    Kids (m.adopt s.root q c) t ↔ Kids m t := kids_adopt (List.disjoint_symm h)

/-- Giving the root of a tree another parent and colour. -/
@[simp] theorem rep_adopt_self (h : t.toList.Nodup) :
    Rep (m.adopt t.root p c) p (t.paint c) ↔ Kids m t := by
  cases t with
  | nil => rfl
  | node ct l x r =>
    have hd := nodup_branch (d := .left).mp h
    simp only [Memory.adopt, ColorTree.root, ColorTree.paint, Rep, Kids, Memory.setParentColor_self,
      Memory.rbLeft_setParentColor, Memory.rbRight_setParentColor, rep_setParentColor hd.1,
      rep_setParentColor hd.2.1, true_and]

@[simp] theorem rep_adopt_color (h : t.toList.Nodup) :
    Rep (m.adopt t.root p t.color) p t ↔ Kids m t := by
  have hself := rep_adopt_self (m := m) (p := p) (c := t.color) h
  rwa [paint_color rfl] at hself

theorem adopt_color (h : Rep m p t) : m.adopt t.root p t.color = m := by
  cases t with
  | nil => rfl
  | node c l x r => exact Memory.setParentColor_eq_self h.1

omit [Word α W] in
@[simp] theorem read_setChild (h : x ∉ around ctx) :
    (m.setChild d x v).read (slot root ctx) = m.read (slot root ctx) :=
  read_slot_congr (fun _ hy => sameAt_setChild fun hyx => h (hyx ▸ hy)) (by simp)

omit [Word α W] in
@[simp] theorem read_setParentColor (sl : Slot α ρ) : (m.setParentColor x w).read sl = m.read sl := by
  cases sl <;> rfl

@[simp] theorem read_adopt (sl : Slot α ρ) : (m.adopt v p c).read sl = m.read sl := by
  cases v <;> cases sl <;> rfl

@[simp] theorem repCtx_setParentColor (h : x ∉ around ctx) :
    RepCtx (m.setParentColor x w) root ctx ↔ RepCtx m root ctx :=
  repCtx_congr (fun _ hy => sameAt_setParentColor fun hyx => h (hyx ▸ hy)) rfl

@[simp] theorem repCtx_setChild (h : x ∉ around ctx) :
    RepCtx (m.setChild d x v) root ctx ↔ RepCtx m root ctx :=
  repCtx_congr (fun _ hy => sameAt_setChild fun hyx => h (hyx ▸ hy)) (by simp)

@[simp] theorem repCtx_adopt (h : s.toList.Disjoint (around ctx)) :
    RepCtx (m.adopt s.root q c) root ctx ↔ RepCtx m root ctx :=
  repCtx_congr (fun _ hy => sameAt_adopt fun hs => h hs hy) (by simp)

end Nodes

section Write
variable [DecidableEq α] [DecidableEq ρ]

omit [Word α W] in
theorem sameAt_write (h : y ∉ around ctx) : SameAt m (m.write v (slot root ctx)) y := by
  cases ctx with
  | nil => exact ⟨rfl, rfl, rfl⟩
  | cons f ctx =>
    rw [write_slot_cons m root f ctx v]
    exact sameAt_setChild fun hy => h (by simp [around, hy])

@[simp] theorem rep_write (h : t.toList.Disjoint (around ctx)) :
    Rep (m.write v (slot root ctx)) p t ↔ Rep m p t :=
  rep_congr fun _ hy => sameAt_write (h hy)

@[simp] theorem kids_write (h : t.toList.Disjoint (around ctx)) :
    Kids (m.write v (slot root ctx)) t ↔ Kids m t :=
  kids_congr fun _ hy => sameAt_write (h hy)

/-- What is linked in the hole is not part of the context. -/
@[simp] theorem repCtx_write (h : (around ctx).Nodup) :
    RepCtx (m.write v (slot root ctx)) root ctx ↔ RepCtx m root ctx := by
  cases ctx with
  | nil => rfl
  | cons f ctx =>
    obtain ⟨d, c, x, sib⟩ := f
    simp only [around, List.cons_append, List.nodup_cons, List.mem_append, not_or] at h
    obtain ⟨⟨hs, hctx⟩, -⟩ := h
    rw [write_slot_cons m root ⟨d, c, x, sib⟩ ctx v]
    have hread : (m.setChild d x v).read (slot root ctx) = m.read (slot root ctx) :=
      read_slot_congr (fun y hy => sameAt_setChild fun hyx => hctx (hyx ▸ hy)) (by simp)
    simp only [RepCtx, Memory.rbParentColor_setChild, Memory.child_flip_setChild, rep_setChild hs,
      repCtx_setChild hctx, hread]

omit [Word α W] in
@[simp] theorem read_write (sl : Slot α ρ) : (m.write v sl).read sl = v := by
  cases sl <;> exact Function.update_self ..

theorem write_adopt {t : Option α} (sl : Slot α ρ) :
    (m.adopt t p c).write v sl = (m.write v sl).adopt t p c := by
  cases t <;> cases sl <;> rfl

omit [Word α W] in
@[simp] theorem rbParentColor_write (sl : Slot α ρ) :
    (m.write v sl).rbParentColor = m.rbParentColor := by cases sl <;> rfl

omit [Word α W] in
@[simp] theorem child_write (h : x ∉ around ctx) :
    (m.write v (slot root ctx)).child d x = m.child d x := (sameAt_write h).child d

/-- From `m` to `m'`, only the tree at the root has changed; it is now the given one. -/
structure Moved (m m' : Memory α W ρ) (root : ρ) (ctx : List (Frame α)) (t : ColorTree α) : Prop
    extends At m' root ctx t where
  outside : ∀ y, y ∉ (plug ctx t).toList → SameAt m m' y
  roots : ∀ r, r ≠ root → m'.rbNode r = m.rbNode r

end Write
end Frames
end CommonProject.RBTree

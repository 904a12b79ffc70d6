import CommonProject.RBTree.Shape

/-! The mirrored branches of `rbtree.c` as one program with the side as a parameter, and what the
accessors do at a node. -/
namespace CommonProject.RBTree
open Foundations.RedBlack Foundations.RedBlack.ColorTree
variable {α W ρ : Type}

def loadChild : Dir → Option α → Prog α W ρ (Option α)
  | .left => loadLeft
  | .right => loadRight

variable [DecidableEq α]

def storeChild : Dir → Option α → Option α → Prog α W ρ Unit
  | .left => storeLeft
  | .right => storeRight

section Programs
variable [DecidableEq ρ] [Word α W]

def insertSide (d : Dir) (node parent gparent tmp : Option α) (root : ρ) :
    Prog α W ρ (Turn α) := do
  if ← isRedNode tmp then
    rbSetParentColor tmp gparent .black
    rbSetParentColor parent gparent .black
    let node := gparent
    let parent ← rbParent node
    rbSetParentColor node parent .red
    return some (node, parent)
  else
    let tmp ← loadChild d.flip parent
    let (parent, tmp) ←
      (if node = tmp then do
        let tmp ← loadChild d node
        storeChild d.flip parent tmp
        storeChild d node parent
        adoptNode tmp parent .black
        rbSetParentColor parent node .red
        let tmp ← loadChild d.flip node
        pure (node, tmp)
      else pure (parent, tmp))
    storeChild d gparent tmp
    storeChild d.flip parent gparent
    adoptNode tmp gparent .black
    rbRotateSetParents gparent parent root .red
    return none

theorem rbInsertLeft_eq (node parent gparent tmp : Option α) (root : ρ) :
    (rbInsertLeft node parent gparent tmp root : Prog α W ρ _) =
      insertSide .left node parent gparent tmp root := rfl

theorem rbInsertRight_eq (node parent gparent tmp : Option α) (root : ρ) :
    (rbInsertRight node parent gparent tmp root : Prog α W ρ _) =
      insertSide .right node parent gparent tmp root := rfl

def eraseCase4 (d : Dir) (parent sibling tmp1 : Option α) (root : ρ) : Prog α W ρ (Turn α) := do
  let tmp2 ← loadChild d sibling
  storeChild d.flip parent tmp2
  storeChild d sibling parent
  rbSetParentColor tmp1 sibling .black
  (if tmp2.isSome then rbSetParent tmp2 parent else pure ())
  rbRotateSetParents parent sibling root .black
  return none

def eraseCase1 (d : Dir) (parent sibling : Option α) (root : ρ) : Prog α W ρ (Option α) := do
  let tmp1 ← loadChild d sibling
  storeChild d.flip parent tmp1
  storeChild d sibling parent
  rbSetParentColor tmp1 parent .black
  rbRotateSetParents parent sibling root .red
  return tmp1

def eraseBlack (d : Dir) (parent sibling : Option α) (root : ρ) : Prog α W ρ (Turn α) := do
  let tmp1 ← loadChild d.flip sibling
  if ← isBlackOrNull tmp1 then
    let tmp2 ← loadChild d sibling
    if ← isBlackOrNull tmp2 then
      rbSetParentColor sibling parent .red
      if ← rbIsRed parent then
        rbSetBlack parent
        return none
      else
        let node := parent
        let parent ← rbParent node
        return if parent.isSome then some (node, parent) else none
    else
      let tmp1 ← loadChild d.flip tmp2
      storeChild d sibling tmp1
      storeChild d.flip tmp2 sibling
      storeChild d.flip parent tmp2
      adoptNode tmp1 sibling .black
      eraseCase4 d parent tmp2 sibling root
  else eraseCase4 d parent sibling tmp1 root

def eraseSide (d : Dir) (parent sibling : Option α) (root : ρ) : Prog α W ρ (Turn α) := do
  let red ← rbIsRed sibling
  let sibling ← (if red then eraseCase1 d parent sibling root else pure sibling)
  eraseBlack d parent sibling root

theorem rbEraseLeft_eq (parent sibling : Option α) (root : ρ) :
    (rbEraseLeft parent sibling root : Prog α W ρ _) = eraseSide .left parent sibling root := rfl

theorem rbEraseRight_eq (parent sibling : Option α) (root : ρ) :
    (rbEraseRight parent sibling root : Prog α W ρ _) = eraseSide .right parent sibling root := rfl

end Programs

section Run
variable [Word α W] {m : Memory α W ρ} {root : ρ} {p : Option α} {d : Dir} {c : Color}
  {x old new : α} {t : ColorTree α} {ctx : List (Frame α)}

omit [Word α W] [DecidableEq α] in
@[simp] theorem run_loadChild (m : Memory α W ρ) (d : Dir) (x : α) :
    (loadChild d (some x)).run m = pure (m.child d x, m) := by cases d <;> rfl

omit [Word α W] [DecidableEq α] in
theorem run_loadNode (h : m.rbNode root = p) :
    (loadNode root).run m = (pure (p, m) : Except Fault _) := by
  rw [← h]
  rfl

omit [Word α W] in
@[simp] theorem run_storeChild (m : Memory α W ρ) (d : Dir) (x : α) (v : Option α) :
    (storeChild d (some x) v).run m = pure ((), m.setChild d x v) := by cases d <;> rfl

omit [Word α W] [DecidableEq α] in
@[simp] theorem run_loadLeft (m : Memory α W ρ) (x : α) :
    (loadLeft (some x)).run m = pure (m.rbLeft x, m) := rfl

omit [Word α W] [DecidableEq α] in
@[simp] theorem run_loadRight (m : Memory α W ρ) (x : α) :
    (loadRight (some x)).run m = pure (m.rbRight x, m) := rfl

omit [Word α W] [DecidableEq α] in
@[simp] theorem run_loadParentColor (m : Memory α W ρ) (x : α) :
    (loadParentColor (some x)).run m = pure (m.rbParentColor x, m) := rfl

omit [Word α W] in
@[simp] theorem run_storeParentColor (m : Memory α W ρ) (x : α) (w : W) :
    (storeParentColor (some x) w).run m = pure ((), m.setParentColor x w) := rfl

omit [DecidableEq α] in
@[simp] theorem run_rbParent (m : Memory α W ρ) (x : α) :
    (rbParent (some x)).run m = pure (Word.parent (m.rbParentColor x), m) := rfl

omit [DecidableEq α] in
@[simp] theorem run_rbIsRed (m : Memory α W ρ) (x : α) :
    (rbIsRed (some x)).run m = pure (Word.color α (m.rbParentColor x) == .red, m) := rfl

omit [DecidableEq α] in
@[simp] theorem run_rbIsBlack (m : Memory α W ρ) (x : α) :
    (rbIsBlack (some x)).run m = pure (Word.color α (m.rbParentColor x) == .black, m) := rfl

omit [DecidableEq α] in
/-- The bare cast is right at a red node. -/
theorem run_rbRedParent (h : m.rbParentColor x = Word.pack p .red) :
    (rbRedParent (some x)).run m = pure (p, m) := by
  have hw : Word.redParent (m.rbParentColor x) = some p := by rw [h, Word.redParent_pack]
  simp only [rbRedParent, StateT.run_bind, run_loadParentColor, pure_bind, hw, StateT.run_pure]

@[simp] theorem run_rbSetBlack (m : Memory α W ρ) (x : α) :
    (rbSetBlack (some x)).run m =
      pure ((), m.setParentColor x (Word.setBlack α (m.rbParentColor x))) := rfl

@[simp] theorem run_rbSetParent (m : Memory α W ρ) (x : α) (p : Option α) :
    (rbSetParent (some x) p).run m =
      pure ((), m.setParentColor x (Word.pack p (Word.color α (m.rbParentColor x)))) := rfl

@[simp] theorem run_rbSetParentColor (m : Memory α W ρ) (x : α) (p : Option α) (c : Color) :
    (rbSetParentColor (some x) p c).run m = pure ((), m.setParentColor x (Word.pack p c)) := rfl

theorem run_rbSetParent_root (h : Rep m p t) (hne : t ≠ .nil) (q : Option α) :
    (rbSetParent t.root q).run m = pure ((), m.adopt t.root q t.color) := by
  cases t with
  | nil => exact absurd rfl hne
  | node c l x r => simp [ColorTree.root, h.1, Word.color_pack, Memory.adopt, ColorTree.color]

theorem run_rbSetParentColor_root (h : t ≠ .nil) (m : Memory α W ρ) (p : Option α) (c : Color) :
    (rbSetParentColor t.root p c).run m = pure ((), m.adopt t.root p c) := by
  cases t with
  | nil => exact absurd rfl h
  | node => rfl

@[simp] theorem run_adoptNode (m : Memory α W ρ) (t p : Option α) (c : Color) :
    (adoptNode t p c).run m = pure ((), m.adopt t p c) := by cases t <;> rfl

/-- The node keeps its colour. -/
theorem run_keep (h : Rep m p t) (q : Option α) :
    StateT.run (if t.root.isSome then rbSetParent t.root q else pure ()) m =
      pure ((), m.adopt t.root q t.color) := by
  cases t with
  | nil => rfl
  | node c l x r => simp [ColorTree.root, h.1, Word.color_pack, Memory.adopt, ColorTree.color]

omit [DecidableEq α] in
@[simp] theorem run_isBlackOrNull_some (m : Memory α W ρ) (x : α) :
    (isBlackOrNull (some x)).run m = pure (Word.color α (m.rbParentColor x) == .black, m) := rfl

omit [DecidableEq α] in
theorem run_isRedNode (h : Rep m p t) :
    (isRedNode t.root).run m = pure (t.color == .red, m) := by
  cases t with
  | nil => rfl
  | node c l x r => simp [isRedNode, ColorTree.root, h.1, Word.color_pack, ColorTree.color]

omit [DecidableEq α] in
theorem run_isBlackOrNull (h : Rep m p t) :
    (isBlackOrNull t.root).run m = pure (t.color == .black, m) := by
  cases t with
  | nil => rfl
  | node c l x r => simp [isBlackOrNull, ColorTree.root, h.1, Word.color_pack, ColorTree.color]

variable [DecidableEq ρ]

/-- The link to `old` is the one that changes. -/
theorem run_rbChangeChild (ctx : List (Frame α)) (h : RepCtx m root ctx) (hlink : m.read (slot root ctx) = some old)
    (hold : old ∉ around ctx) (new : Option α) :
    (rbChangeChild (some old) new (above ctx) root).run m =
      pure ((), m.write new (slot root ctx)) := by
  cases ctx with
  | nil => rfl
  | cons f ctx =>
    obtain ⟨d, c, x, sib⟩ := f
    cases d with
    | left =>
      have hl : m.rbLeft x = some old := hlink
      simp only [rbChangeChild, above, Option.isSome_some, if_true, StateT.run_bind, run_loadLeft,
        pure_bind, hl]
      rfl
    | right =>
      have hl : m.rbLeft x ≠ some old := by
        intro hx
        have hsib : m.rbLeft x = sib.root := h.2.1
        exact hold (by simp [around, root_mem (hsib ▸ hx)])
      simp only [rbChangeChild, above, Option.isSome_some, if_true, StateT.run_bind, run_loadLeft,
        pure_bind, if_neg hl]
      rfl

/-- The new node of a rotation takes over the place of the old one. -/
theorem run_rbRotateSetParents (ctx : List (Frame α)) (h : RepCtx m root ctx)
    (hlink : m.read (slot root ctx) = some old)
    (hold : old ∉ around ctx) (hnew : new ∉ around ctx)
    (hw : m.rbParentColor old = Word.pack (above ctx) c) (c' : Color) :
    (rbRotateSetParents (some old) (some new) root c').run m =
      pure ((), ((m.setParentColor new (Word.pack (above ctx) c)).setParentColor old
        (Word.pack (some new) c')).write (some new) (slot root ctx)) := by
  simp only [rbRotateSetParents, StateT.run_bind, run_rbParent, run_loadParentColor,
    run_storeParentColor, run_rbSetParentColor, pure_bind, hw, Word.parent_pack]
  exact run_rbChangeChild ctx (by simp [hold, hnew, h]) (by simp [hlink]) hold _

end Run
end CommonProject.RBTree

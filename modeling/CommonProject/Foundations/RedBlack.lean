import Mathlib.Data.List.Basic

/-! Red-black trees with a zipper: rebalancing from a place in the tree towards the root. -/
namespace CommonProject.Foundations.RedBlack

inductive Color
  | red
  | black
  deriving DecidableEq, Repr

inductive Dir
  | left
  | right
  deriving DecidableEq, Repr

def Dir.flip : Dir → Dir
  | .left => .right
  | .right => .left

inductive ColorTree (α : Type)
  | nil
  | node (c : Color) (l : ColorTree α) (x : α) (r : ColorTree α)
  deriving DecidableEq, Repr

variable {α : Type}

namespace ColorTree

/-- The node `x` with the subtree `near` on the side `d` and `far` on the other one. -/
def branch (d : Dir) (c : Color) (x : α) (near far : ColorTree α) : ColorTree α :=
  match d with
  | .left => .node c near x far
  | .right => .node c far x near

def toList : ColorTree α → List α
  | nil => []
  | node _ l x r => l.toList ++ x :: r.toList

def root : ColorTree α → Option α
  | nil => none
  | node _ _ x _ => some x

def color : ColorTree α → Color
  | nil => .black
  | node c _ _ _ => c

def child (d : Dir) : ColorTree α → ColorTree α
  | nil => nil
  | node _ l _ r => match d with
    | .left => l
    | .right => r

def paint (c : Color) : ColorTree α → ColorTree α
  | nil => nil
  | node _ l x r => node c l x r

end ColorTree

/-- One step of the way down: the side taken, the node and the subtree passed by. -/
structure Frame (α : Type) where
  dir : Dir
  color : Color
  value : α
  sibling : ColorTree α
  deriving DecidableEq, Repr

def Frame.fill (f : Frame α) (t : ColorTree α) : ColorTree α :=
  ColorTree.branch f.dir f.color f.value t f.sibling

/-- The tree around a hole, from the innermost frame outwards. -/
def plug : List (Frame α) → ColorTree α → ColorTree α
  | [], t => t
  | f :: ctx, t => plug ctx (f.fill t)

def before : List (Frame α) → List α
  | [] => []
  | f :: ctx => before ctx ++ match f.dir with
    | .left => []
    | .right => f.sibling.toList ++ [f.value]

def after : List (Frame α) → List α
  | [] => []
  | f :: ctx => (match f.dir with
    | .left => f.value :: f.sibling.toList
    | .right => []) ++ after ctx

open ColorTree

/-- The two rotations of a red node `t` below the red `p`; the uncle in `g` is black. -/
def insertRotate (p g : Frame α) (t : ColorTree α) : ColorTree α :=
  if p.dir = g.dir then
    branch g.dir g.color p.value t (branch g.dir .red g.value (p.sibling.paint .black) g.sibling)
  else match t with
    | .nil => .nil
    | .node _ _ x _ =>
      branch g.dir g.color x
        (branch g.dir .red p.value p.sibling ((t.child g.dir).paint .black))
        (branch g.dir .red g.value ((t.child g.dir.flip).paint .black) g.sibling)

def insertFix : List (Frame α) → ColorTree α → ColorTree α
  | [], t => t.paint .black
  | [p], t => p.fill t
  | p :: g :: ctx, t =>
    if p.color = .black then plug (p :: g :: ctx) t
    else if g.sibling.color = .red then
      insertFix ctx (branch g.dir .red g.value (Frame.fill { p with color := .black } t)
        (g.sibling.paint .black))
    else plug ctx (insertRotate p g t)

/-- The rotations that give the short side `t` a black node, if the sibling has a red child. -/
def eraseRotate (f : Frame α) (t : ColorTree α) : Option (ColorTree α) :=
  match f.sibling with
  | .nil => none
  | .node c l s r =>
    let near := (ColorTree.node c l s r).child f.dir
    let far := (ColorTree.node c l s r).child f.dir.flip
    if far.color = .red then
      some (branch f.dir f.color s (branch f.dir .black f.value t near) (far.paint .black))
    else match near with
      | .node .red a y b =>
        let near' := ColorTree.node .red a y b
        some (branch f.dir f.color y (branch f.dir .black f.value t (near'.child f.dir))
          (branch f.dir .black s ((near'.child f.dir.flip).paint .black) far))
      | _ => none

def Frame.flipSibling (f : Frame α) (c : Color) : Frame α :=
  { f with color := c, sibling := f.sibling.paint .red }

def eraseFix : List (Frame α) → ColorTree α → ColorTree α
  | [], t => t
  | f :: ctx, t =>
    match f.sibling with
    | .node .red l s r =>
      let sibling := ColorTree.node .red l s r
      let p : Frame α := ⟨f.dir, .red, f.value, (sibling.child f.dir).paint .black⟩
      let g : Frame α := ⟨f.dir, f.color, s, sibling.child f.dir.flip⟩
      plug ctx (g.fill ((eraseRotate p t).getD ((p.flipSibling .black).fill t)))
    | _ =>
      match eraseRotate f t with
      | some u => plug ctx u
      | none =>
        if f.color = .red then plug ctx ((f.flipSibling .black).fill t)
        else eraseFix ctx ((f.flipSibling .black).fill t)

def firstOf : Color → ColorTree α → α → ColorTree α → List (Frame α) → List (Frame α) × Color × α × ColorTree α
  | c, .nil, x, r, path => (path, c, x, r)
  | c, .node cl ll xl rl, x, r, path => firstOf cl ll xl rl (⟨.left, c, x, r⟩ :: path)

/-- Take the node `x` out: the hole that is left, what goes there, and whether the paths through
it lack a black node. -/
def splice (ctx : List (Frame α)) (c : Color) (l r : ColorTree α) : List (Frame α) × ColorTree α × Bool :=
  match l, r with
  | .nil, .nil => (ctx, .nil, c == .black)
  | .nil, r => (ctx, r.paint c, false)
  | l, .nil => (ctx, l.paint c, false)
  | l, .node cr rl y rr =>
    let (path, cs, s, child) := firstOf cr rl y rr []
    (path ++ ⟨.right, c, s, l⟩ :: ctx, child.paint .black, cs == .black && child.root.isNone)

def eraseNode (ctx : List (Frame α)) (c : Color) (l r : ColorTree α) : ColorTree α :=
  let (ctx', t, deficit) := splice ctx c l r
  if deficit then eraseFix ctx' t else plug ctx' t

section Order
variable {d : Dir} {c : Color} {x : α} {t near far : ColorTree α} {ctx : List (Frame α)}

@[simp] theorem root_nil : (nil : ColorTree α).root = none := rfl

@[simp] theorem root_node (c : Color) (l : ColorTree α) (x : α) (r : ColorTree α) :
    (node c l x r).root = some x := rfl

theorem root_eq_none : t.root = none ↔ t = .nil := by cases t <;> simp

@[simp] theorem toList_paint : (t.paint c).toList = t.toList := by cases t <;> rfl

@[simp] theorem root_paint : (t.paint c).root = t.root := by cases t <;> rfl

@[simp] theorem root_branch : (branch d c x near far).root = some x := by cases d <;> rfl

@[simp] theorem color_branch : (branch d c x near far).color = c := by cases d <;> rfl

@[simp] theorem paint_branch (c' : Color) :
    (branch d c x near far).paint c' = branch d c' x near far := by cases d <;> rfl

@[simp] theorem Dir.flip_flip (d : Dir) : d.flip.flip = d := by cases d <;> rfl

@[simp] theorem branch_flip : branch d.flip c x near far = branch d c x far near := by
  cases d <;> rfl

/-- Every node is a branch in both directions. -/
theorem node_eq_branch (d : Dir) (c : Color) (l : ColorTree α) (x : α) (r : ColorTree α) :
    node c l x r = branch d c x ((node c l x r).child d) ((node c l x r).child d.flip) := by
  cases d <;> rfl

theorem toList_plug (ctx : List (Frame α)) (t : ColorTree α) :
    (plug ctx t).toList = before ctx ++ t.toList ++ after ctx := by
  induction ctx generalizing t with
  | nil => simp [plug, before, after]
  | cons f ctx ih =>
    obtain ⟨d, c, x, sib⟩ := f
    rw [plug, ih]
    cases d <;> simp [Frame.fill, branch, toList, before, after]

/-- Only the order of the nodes in the hole matters to the order in the whole. -/
theorem toList_plug_congr {t t' : ColorTree α} (h : t.toList = t'.toList) :
    (plug ctx t).toList = (plug ctx t').toList := by
  rw [toList_plug, toList_plug, h]

private theorem toList_insertRotate (p g : Frame α) (c : Color) (l : ColorTree α) (y : α)
    (r : ColorTree α) :
    (insertRotate p g (node c l y r)).toList = (g.fill (p.fill (node c l y r))).toList := by
  obtain ⟨dp, cp, xp, sp⟩ := p
  obtain ⟨dg, cg, xg, sg⟩ := g
  cases dp <;> cases dg <;> simp [insertRotate, Frame.fill, branch, toList, child, Dir.flip]

theorem toList_insertFix (ctx : List (Frame α)) {t : ColorTree α} (ht : t.root ≠ none) :
    (insertFix ctx t).toList = (plug ctx t).toList := by
  fun_induction insertFix ctx t with
  | case1 t => simp [plug]
  | case2 p t => rfl
  | case3 p g ctx t hb => rfl
  | case4 p g ctx t hp hu ih =>
    rw [ih (by simp)]
    apply toList_plug_congr
    obtain ⟨dp, cp, xp, sp⟩ := p
    obtain ⟨dg, cg, xg, sg⟩ := g
    cases dp <;> cases dg <;> simp [Frame.fill, branch, toList]
  | case5 p g ctx t hp hu =>
    apply toList_plug_congr
    cases t with
    | nil => exact absurd rfl ht
    | node c l y r => exact toList_insertRotate p g c l y r

/-- A new node comes between what was before and after its place. -/
theorem toList_insert (ctx : List (Frame α)) (x : α) :
    (insertFix ctx (node .red .nil x .nil)).toList = before ctx ++ x :: after ctx := by
  rw [toList_insertFix ctx (by simp), toList_plug]
  simp [toList]

inductive EraseRotates (d : Dir) (c : Color) (x : α) (t : ColorTree α) : ColorTree α → Option (ColorTree α) → Prop
  | far {cs : Color} {s : α} {near far : ColorTree α} : far.color = .red →
      EraseRotates d c x t (branch d cs s near far)
        (some (branch d c s (branch d .black x t near) (far.paint .black)))
  | near {cs : Color} {s y : α} {a b far : ColorTree α} : far.color = .black →
      EraseRotates d c x t (branch d cs s (branch d .red y a b) far)
        (some (branch d c y (branch d .black x t a) (branch d .black s (b.paint .black) far)))
  | flip {cs : Color} {s : α} {near far : ColorTree α} : near.color = .black → far.color = .black →
      EraseRotates d c x t (branch d cs s near far) none
  | leaf : EraseRotates d c x t .nil none

theorem Color.eq_black {c : Color} (h : c ≠ .red) : c = .black := by
  cases c
  · exact absurd rfl h
  · rfl

theorem eraseRotate_spec (f : Frame α) (t : ColorTree α) :
    EraseRotates f.dir f.color f.value t f.sibling (eraseRotate f t) := by
  obtain ⟨d, c, x, sib⟩ := f
  cases sib with
  | nil => exact .leaf
  | node cs l s r =>
    have hsib := node_eq_branch d cs l s r
    simp only [eraseRotate]
    generalize (node cs l s r).child d = near at hsib ⊢
    generalize (node cs l s r).child d.flip = far at hsib ⊢
    rw [hsib]
    split
    · exact .far ‹_›
    · have hfar := Color.eq_black ‹_›
      split
      · rename_i a y b
        have hnear := node_eq_branch d .red a y b
        generalize (node .red a y b).child d = a' at hnear ⊢
        generalize (node .red a y b).child d.flip = b' at hnear ⊢
        rw [hnear]
        exact .near hfar
      · rename_i hnear
        refine .flip (Color.eq_black fun hred => ?_) hfar
        cases near with
        | nil => cases hred
        | node cn a y b =>
          obtain rfl : cn = .red := hred
          exact hnear a y b rfl

theorem toList_branch_congr (d : Dir) (c c' : Color) (x : α) {near far near' far' : ColorTree α}
    (hn : near.toList = near'.toList) (hf : far.toList = far'.toList) :
    (branch d c x near far).toList = (branch d c' x near' far').toList := by
  cases d <;> simp [branch, toList, hn, hf]

theorem EraseRotates.toList_eq {sib u : ColorTree α} (h : EraseRotates d c x t sib (some u)) :
    u.toList = (branch d c x t sib).toList := by
  cases h <;> cases d <;> simp [branch, toList]

private theorem toList_flipSibling (f : Frame α) (c : Color) (t : ColorTree α) :
    ((f.flipSibling c).fill t).toList = (f.fill t).toList :=
  toList_branch_congr _ _ _ _ rfl toList_paint

private theorem toList_eraseRotate {f : Frame α} {t u : ColorTree α}
    (h : eraseRotate f t = some u) : u.toList = (f.fill t).toList := by
  have hspec := eraseRotate_spec f t
  rw [h] at hspec
  exact hspec.toList_eq

private theorem toList_settle (f : Frame α) (t : ColorTree α) :
    ((eraseRotate f t).getD ((f.flipSibling .black).fill t)).toList = (f.fill t).toList := by
  cases h : eraseRotate f t with
  | none => exact toList_flipSibling f .black t
  | some u => exact toList_eraseRotate h

/-- A rotation at the node `x` with the red sibling `s`. -/
theorem toList_rotate (d : Dir) (c c' c'' : Color) (x s : α) {t u near far : ColorTree α}
    (hu : u.toList = (branch d .red x t (near.paint .black)).toList) :
    (branch d c s u far).toList = (branch d c' x t (branch d c'' s near far)).toList := by
  rw [toList_branch_congr d c c s hu rfl]
  cases d <;> simp [branch, toList]

theorem toList_eraseFix (ctx : List (Frame α)) (t : ColorTree α) :
    (eraseFix ctx t).toList = (plug ctx t).toList := by
  fun_induction eraseFix ctx t with
  | case1 t => rfl
  | case2 f ctx t l s r hsib sibling p g =>
    have hfill : f.fill t = branch f.dir f.color f.value t (branch f.dir .red s
        (sibling.child f.dir) (sibling.child f.dir.flip)) := by
      rw [Frame.fill, hsib, ← node_eq_branch]
    rw [plug, hfill]
    exact toList_plug_congr
      (toList_rotate f.dir f.color f.color .red f.value s (toList_settle p t))
  | case3 f ctx t u hu hne => exact toList_plug_congr (toList_eraseRotate hu)
  | case4 f ctx t hnone hred hne => exact toList_plug_congr (toList_flipSibling f _ t)
  | case5 f ctx t hnone hred hne ih =>
    rw [ih]
    exact toList_plug_congr (toList_flipSibling f _ t)

theorem plug_append (p q : List (Frame α)) (t : ColorTree α) : plug (p ++ q) t = plug q (plug p t) := by
  induction p generalizing t with
  | nil => rfl
  | cons f p ih => exact ih _

/-- The first node is at the end of its path. -/
theorem plug_firstOf {c c' : Color} {l r child : ColorTree α} {x s : α} {path path' : List (Frame α)}
    (h : firstOf c l x r path = (path', c', s, child)) :
    plug path' (node c' .nil s child) = plug path (node c l x r) := by
  fun_induction firstOf c l x r path with
  | case1 c x r path =>
    cases h
    rfl
  | case2 c cl ll xl rl x r path ih => exact ih h

/-- Every node of a tree is somewhere in it. -/
theorem exists_plug {t : ColorTree α} {x : α} (h : x ∈ t.toList) :
    ∃ ctx c l r, t = plug ctx (node c l x r) := by
  suffices hsub : ∀ ctx, ∃ ctx' c l r, plug ctx t = plug ctx' (node c l x r) from hsub []
  induction t with
  | nil => simp [toList] at h
  | node c l y r ihl ihr =>
    intro ctx
    simp only [toList, List.mem_append, List.mem_cons] at h
    rcases h with h | rfl | h
    · exact ihl h (⟨.left, c, y, r⟩ :: ctx)
    · exact ⟨ctx, c, l, r, rfl⟩
    · exact ihr h (⟨.right, c, y, l⟩ :: ctx)

theorem length_firstOf {c c' : Color} {l r child : ColorTree α} {x s : α} {path path' : List (Frame α)}
    (h : firstOf c l x r path = (path', c', s, child)) : path.length ≤ path'.length := by
  fun_induction firstOf c l x r path with
  | case1 c x r path =>
    cases h
    exact Nat.le_refl _
  | case2 c cl ll xl rl x r path ih => exact Nat.le_of_succ_le (ih h)

/-- The last turn down was to the left. -/
theorem dir_firstOf {c c' : Color} {l r child : ColorTree α} {x s : α} {path path' : List (Frame α)}
    (h : firstOf c l x r path = (path', c', s, child)) (hl : l ≠ .nil) :
    ∃ cq q sib ps, path' = ⟨.left, cq, q, sib⟩ :: ps := by
  fun_induction firstOf c l x r path with
  | case1 c x r path => exact absurd rfl hl
  | case2 c cl ll xl rl x r path ih =>
    cases ll with
    | nil =>
      cases h
      exact ⟨_, _, _, _, rfl⟩
    | node => exact ih h nofun

/-- What fills a hole below the root changes neither the root nor its colour. -/
theorem root_plug_cons (f : Frame α) (ps : List (Frame α)) (t t' : ColorTree α) :
    (plug (f :: ps) t).root = (plug (f :: ps) t').root ∧
      (plug (f :: ps) t).color = (plug (f :: ps) t').color := by
  induction ps generalizing f t t' with
  | nil => simp [plug, Frame.fill]
  | cons g ps ih => exact ih g _ _

private theorem before_append (p q : List (Frame α)) : before (p ++ q) = before q ++ before p := by
  induction p with
  | nil => simp [before]
  | cons f p ih => simp [before, ih]

private theorem after_append (p q : List (Frame α)) : after (p ++ q) = after p ++ after q := by
  induction p with
  | nil => simp [after]
  | cons f p ih => simp [after, ih]

/-- The first node below a node is the head of its list. -/
theorem firstOf_toList {c c' : Color} {l r child : ColorTree α} {x s : α} {path path' : List (Frame α)}
    (h : firstOf c l x r path = (path', c', s, child)) :
    before path' = before path ∧
    s :: (child.toList ++ after path') = (node c l x r).toList ++ after path := by
  fun_induction firstOf c l x r path with
  | case1 c x r path =>
    cases h
    simp [toList]
  | case2 c cl ll xl rl x r path ih =>
    obtain ⟨hb, ha⟩ := ih h
    refine ⟨hb.trans (by simp [before]), ha.trans ?_⟩
    simp [toList, after]

theorem toList_splice (ctx : List (Frame α)) (c : Color) (l r : ColorTree α) :
    (plug (splice ctx c l r).1 (splice ctx c l r).2.1).toList =
      before ctx ++ (l.toList ++ r.toList) ++ after ctx := by
  rw [toList_plug]
  fun_cases splice ctx c l r with
  | case1 => simp [toList]
  | case2 => simp [toList]
  | case3 => simp [toList]
  | case4 l cr rl y rr hl path cs s child hfirst =>
    obtain ⟨hb, ha⟩ := firstOf_toList hfirst
    simp only [before, after, List.append_nil] at hb ha
    simp only [before_append, after_append, before, after, hb, ← ha, toList_paint,
      List.append_nil, List.nil_append, List.append_assoc, List.cons_append]

theorem toList_eraseNode (ctx : List (Frame α)) (c : Color) (l r : ColorTree α) :
    (eraseNode ctx c l r).toList = before ctx ++ (l.toList ++ r.toList) ++ after ctx := by
  rw [← toList_splice]
  simp only [eraseNode]
  split
  · exact toList_eraseFix _ _
  · rfl

/-- Erasing takes the node out of the list, and nothing else. -/
theorem toList_eraseNode_eq_erase [DecidableEq α] {l r : ColorTree α}
    (h : (plug ctx (node c l x r)).toList.Nodup) :
    (eraseNode ctx c l r).toList = (plug ctx (node c l x r)).toList.erase x := by
  have hlist : (plug ctx (node c l x r)).toList =
      (before ctx ++ l.toList) ++ x :: (r.toList ++ after ctx) := by
    rw [toList_plug]
    simp [toList]
  rw [hlist] at h ⊢
  have hx : x ∉ before ctx ++ l.toList :=
    fun hx => (List.nodup_append.mp h).2.2 x hx x (List.mem_cons_self ..) rfl
  rw [List.erase_append_right _ hx, List.erase_cons_head, toList_eraseNode]
  simp

end Order

end CommonProject.Foundations.RedBlack

import CommonProject.RBTree.Erase

/-! `__rb_erase_augmented` takes the node out, and never writes to it. -/
namespace CommonProject.RBTree
open Foundations.RedBlack Foundations.RedBlack.ColorTree
variable {α W ρ : Type} [Word α W] [DecidableEq α] [DecidableEq ρ]

section Splice
variable {m m' : Memory α W ρ} {root : ρ} {d : Dir} {x y s : α} {l r t child : ColorTree α}
  {ctx path path' : List (Frame α)} {c cs cl : Color} {fuel : Nat}

/-- A node without a child on one side is replaced by the other child. -/
private theorem unlink_moved (h : At m root ctx (branch d c x .nil t)) (c' : Color) :
    Moved m ((m.write t.root (slot root ctx)).adopt t.root (above ctx) c') root ctx
      (t.paint c') := by
  have hnd := h.nodup
  have hctx := h.repCtx
  have hrep := rep_branch.mp h.rep
  have ht : Kids m t := hrep.2.2.2.2.kids
  simp only [nodup_plug, nodup_branch, disjoint_branch, toList] at hnd
  apply h.moved_of_subset
  case hnd => simp [hnd]
  case hsub =>
    intro y hy
    rw [mem_branch]
    exact .inr (.inr (by simpa using hy))
  case hctx => simp [*]
  case hlink => simp
  case hrep => simp [*]
  case hout =>
    intro y hy hy'
    rw [toList_paint] at hy
    simp [hy, hy']
  case hroots =>
    intro r hr
    simp [hr]

omit [Word α W] [DecidableEq α] [DecidableEq ρ] in
/-- The loop follows the left links to the first node. -/
theorem run_successorLoop [Word α W] {p : Option α}
    (h : firstOf cl l x r path = (path', cs, s, child)) (hrep : Rep m p (.node cl l x r))
    (hfuel : path'.length ≤ fuel + path.length) :
    (successorLoop (fuel + 1) (above path) (some x)).run m =
      (pure ((above path', some s), m) : Except Fault _) := by
  fun_induction firstOf cl l x r path generalizing p fuel with
  | case1 c x r path =>
    cases h
    have hl : m.rbLeft s = none := hrep.2.1
    simp [successorLoop, hl]
  | case2 c cl ll xl rl x r path ih =>
    have hl : m.rbLeft x = some xl := hrep.2.1
    have hlen := length_firstOf h
    rw [List.length_cons] at hlen
    obtain ⟨k, rfl⟩ : ∃ k, fuel = k + 1 := Nat.exists_eq_add_one_of_ne_zero (by omega)
    have hrec : (successorLoop (k + 1) (some x) (some xl)).run m = _ :=
      ih h hrep.2.2.2.1 (by rw [List.length_cons]; omega)
    rw [successorLoop]
    simp only [StateT.run_bind, run_loadLeft, hl, pure_bind, Option.isSome_some, if_true, hrec]

/-- The node `s` takes over the place, the colour and the subtrees of another node. -/
private theorem replace_at (hctx : RepCtx m root ctx) (hl : Kids m l) (hr : Kids m r)
    (hnd : (plug ctx (.node c l s r)).toList.Nodup) :
    At ((((((m.setChild (Dir.flip .left) s r.root).adopt r.root (some s) r.color).setChild .left s
      l.root).adopt l.root (some s) l.color).write (some s) (slot root ctx)).setParentColor s
      (Word.pack (above ctx) c)) root ctx (.node c l s r) := by
  have hnd' := hnd
  change (plug ctx (branch .left c s l r)).toList.Nodup at hnd'
  simp only [nodup_plug, nodup_branch, disjoint_branch] at hnd'
  refine ⟨?_, ?_, ?_, hnd⟩
  · simp [*]
  · simp [ColorTree.root]
  · change Rep _ _ (branch .left c s l r)
    simp [*, rep_branch]

def findSuccessor (fuel : Nat) (child tmp : Option α) :
    Prog α W ρ (Option α × Option α × Option α) :=
  if tmp.isNone then do
    let child2 ← loadRight child
    pure (child, child, child2)
  else do
    let (parent, successor) ← successorLoop fuel child tmp
    let child2 ← loadRight successor
    storeLeft parent child2
    storeRight successor child
    rbSetParent child successor
    pure (parent, successor, child2)

def takePlace (node parent successor child2 : Option α) (root : ρ) : Prog α W ρ (Option α) := do
  let tmp ← loadLeft node
  storeLeft successor tmp
  rbSetParent tmp successor
  let pc : W ← loadParentColor node
  let tmp := Word.parent pc
  rbChangeChild node successor tmp root
  let rebalance ←
    (if child2.isSome then do
      rbSetParentColor child2 parent .black
      pure none
    else do
      pure (if ← rbIsBlack successor then parent else none))
  storeParentColor successor pc
  return rebalance

/-- Cases 2 and 3: the node has two children. -/
theorem run_rbEraseAugmented_both (hl : m.rbLeft x ≠ none) (hr : m.rbRight x = some y) :
    (rbEraseAugmented fuel (some x) root).run m = StateT.run (do
      let (parent, successor, child2) ← findSuccessor fuel (some y) (m.rbLeft y)
      takePlace (some x) parent successor child2 root) m := by
  obtain ⟨v, hv⟩ := Option.ne_none_iff_exists'.mp hl
  simp only [rbEraseAugmented, StateT.run_bind, run_loadRight, run_loadLeft, pure_bind, hv, hr,
    Option.isNone_some, Bool.false_eq_true, if_false]
  rfl

private theorem run_takePlace {p q parent : Option α} (hctx : RepCtx m root ctx)
    (hlink : m.read (slot root ctx) = some x) (hx : m.rbParentColor x = Word.pack (above ctx) c)
    (hl : m.child .left x = l.root) (hrep : Rep m p l) (hne : l ≠ .nil)
    (hs : m.rbParentColor s = Word.pack q cs) (hxl : x ∉ l.toList)
    (hsl : s ∉ l.toList) (hxc : x ∉ around ctx) (hsc : s ∉ around ctx)
    (hlc : l.toList.Disjoint (around ctx)) :
    (takePlace (some x) parent (some s) child.root root).run m =
      pure (if child.root.isNone ∧ cs = .black then parent else none,
        ((((m.setChild .left s l.root).adopt l.root (some s) l.color).write (some s)
          (slot root ctx)).adopt child.root parent .black).setParentColor s
          (Word.pack (above ctx) c)) := by
  have hrep' : Rep (m.setChild .left s l.root) p l := by simp [*]
  have hx' : ((m.setChild .left s l.root).adopt l.root (some s) l.color).rbParentColor x =
      Word.pack (above ctx) c := by simp [*]
  have hs' : (((m.setChild .left s l.root).adopt l.root (some s) l.color).write (some s)
      (slot root ctx)).rbParentColor s = Word.pack q cs := by simp [*]
  have hchange : (rbChangeChild (some x) (some s) (above ctx) root).run
      ((m.setChild .left s l.root).adopt l.root (some s) l.color) = _ :=
    run_rbChangeChild ctx (by simp [*]) (by simp [*]) hxc (some s)
  have hleft : m.rbLeft x = l.root := hl
  have hstore := run_storeChild m .left s l.root
  simp only [storeChild] at hstore
  simp only [takePlace, StateT.run_bind, run_loadLeft, pure_bind, hleft, hstore,
    run_rbSetParent_root hrep' hne, run_loadParentColor, hx', Word.parent_pack, hchange]
  cases child with
  | nil => simp [hs', Word.color_pack]
  | node cc a v b => simp

/-- Case 2: the successor is the right child. -/
theorem run_erase_case2 {cr : Color} (fuel : Nat)
    (h : At m root ctx (.node c l x (.node cr .nil y r)))
    (hne : l ≠ .nil) :
    ∃ m', (rbEraseAugmented fuel (some x) root).run m =
        pure (if r.root.isNone ∧ cr = .black then some y else none, m') ∧
      Moved m m' root ctx (.node c l y (r.paint .black)) := by
  have hnd : (plug ctx (branch .left c x l (branch .left cr y .nil r))).toList.Nodup := h.nodup
  have hrep : Rep m (above ctx) (branch .left c x l (branch .left cr y .nil r)) := h.rep
  have hctx := h.repCtx
  have hlink := h.link
  simp only [nodup_plug, nodup_branch, disjoint_branch, disjoint_branch_right, mem_branch,
    not_or] at hnd
  simp only [rep_branch, root_branch, root_node] at hrep hlink
  have hl : m.rbLeft x = l.root := hrep.2.1
  have hr : m.rbRight x = some y := hrep.2.2.1
  have hyl : m.rbLeft y = none := hrep.2.2.2.2.2.1
  have hyr : m.rbRight y = r.root := hrep.2.2.2.2.2.2.1
  have hkl : Kids m l := hrep.2.2.2.1.kids
  have hkr : Kids m r := hrep.2.2.2.2.2.2.2.2.kids
  refine ⟨?m', ?run, ?moved⟩
  case run =>
    have hfind : (findSuccessor fuel (some y) (m.rbLeft y)).run m =
        pure ((some y, some y, r.root), m) := by simp [findSuccessor, hyl, hyr]
    rw [run_rbEraseAugmented_both (by simpa [hl, root_eq_none] using hne) hr, StateT.run_bind,
      hfind, pure_bind]
    exact run_takePlace hctx hlink hrep.1 hrep.2.1 hrep.2.2.2.1 hne hrep.2.2.2.2.1
      (by simp [*]) (by simp [*]) (by simp [*]) (by simp [*]) (by simp [*])
  case moved =>
    apply h.moved_of_subset
    case hnd =>
      change (branch .left c y l (r.paint .black)).toList.Nodup
      simp [*, nodup_branch]
    case hsub =>
      intro w hw
      simp only [toList, toList_paint, List.nil_append, List.mem_append, List.mem_cons] at hw ⊢
      tauto
    case hctx => simp [*]
    case hlink => simp
    case hrep =>
      change Rep _ _ (branch .left c y l (r.paint .black))
      have hyr' : m.child (Dir.flip .left) y = r.root := hyr
      simp [*, rep_branch]
    case hout =>
      intro w hw hw'
      simp only [toList, toList_paint, List.mem_append, List.mem_cons, not_or] at hw
      simp [hw, hw']
    case hroots =>
      intro w hw
      simp [hw]

omit [DecidableEq α] [DecidableEq ρ] in
theorem at_append : At m root (path ++ ctx) t ↔ At m root ctx (plug path t) := by
  rw [at_plug, plug_append, ← at_plug]

/-- The successor `s` of `x` is below `q`; without it the right subtree `r` is `r'`. -/
structure Successor (m : Memory α W ρ) (root : ρ) (ctx : List (Frame α)) (c : Color) (l : ColorTree α)
    (x : α) (r : ColorTree α) (q : α) (cs : Color) (s : α) (child r' : ColorTree α) : Prop where
  toList_eq : r.toList = s :: r'.toList
  root_eq : r'.root = r.root
  color_eq : r'.color = r.color
  parent_mem : q ∈ r'.toList
  child_subset : child.toList ⊆ r'.toList
  root_ne : ∀ v, child.root = some v → r'.root ≠ some v
  rbParentColor_eq : m.rbParentColor s = Word.pack (some q) cs
  rbRight_eq : m.rbRight s = child.root
  unlinked : At ((m.setChild .left q child.root).adopt child.root (some q) .black) root ctx
    (.node c l x r')

/-- What `firstOf` finds in memory. -/
theorem successor_firstOf {rl rr : ColorTree α} {cr : Color}
    (h : At m root ctx (.node c l x (.node cr rl y rr))) (hrl : rl ≠ .nil)
    (hfirst : firstOf cr rl y rr [] = (path, cs, s, child)) :
    ∃ q, above path = some q ∧
      Successor m root ctx c l x (.node cr rl y rr) q cs s child (plug path (child.paint .black)) := by
  have hplace : At m root (path ++ ⟨.right, c, x, l⟩ :: ctx) (.node cs .nil s child) := by
    rw [at_append, plug_firstOf hfirst, at_fill]
    exact h
  obtain ⟨cq, q, sq, ps, rfl⟩ := dir_firstOf hfirst hrl
  have hroot := root_plug_cons ⟨.left, cq, q, sq⟩ ps (child.paint .black) (.node cs .nil s child)
  rw [plug_firstOf hfirst] at hroot
  have hun := (unlink_moved (d := .left) hplace .black).toAt
  rw [at_append] at hun
  refine ⟨q, rfl, ?_, hroot.1, hroot.2, ?_, ?_, ?_, hplace.rep.1, hplace.rep.2.2.1,
    at_fill.mp hun⟩
  · obtain ⟨hb, ha⟩ := firstOf_toList hfirst
    rw [toList_plug, hb, toList_paint]
    simpa [before, after] using ha.symm
  · exact mem_plug.mpr (.inr (by simp [around]))
  · exact fun v hv => mem_plug.mpr (.inl (by simpa using hv))
  · intro v hv hr
    have hnd := (nodup_plug.mp (nodup_plug.mp hun.nodup).1).2.2
    exact hnd (by simpa using root_mem hv) (root_plug_mem hr)

/-- Case 3: the successor is further down. -/
theorem successor_moved {r r' : ColorTree α} {q : α} (h : At m root ctx (.node c l x r))
    (hs : Successor m root ctx c l x r q cs s child r') (hy : r.root = some y) :
    Moved m (((((((((m.setChild .left q child.root).setChild (Dir.flip .left) s (some y)).adopt (some y)
      (some s) r.color).setChild .left s l.root).adopt l.root (some s) l.color).write (some s)
      (slot root ctx)).adopt child.root (some q) .black).setParentColor s
      (Word.pack (above ctx) c))) root ctx (.node c l s r') := by
  have hnd : (plug ctx (branch .left c x l r)).toList.Nodup := h.nodup
  simp only [nodup_plug, nodup_branch, disjoint_branch, hs.toList_eq, List.nodup_cons,
    List.disjoint_cons_right, List.disjoint_cons_left, List.mem_cons, not_or] at hnd
  have hnd' : (plug ctx (.node c l s r')).toList.Nodup := by
    change (plug ctx (branch .left c s l r')).toList.Nodup
    simp only [nodup_plug, nodup_branch, disjoint_branch]
    tauto
  have hyr : y ∈ r'.toList := root_mem (hs.root_eq.trans hy)
  have hyc : ∀ v, child.root = some v → some y ≠ some v := fun v hv hyv =>
    hs.root_ne v hv (hs.root_eq.trans (hy.trans hyv))
  have hlc : ∀ v, child.root = some v → l.root ≠ some v := fun v hv hl =>
    hnd.1.2.2.2.2.2 (root_mem hl) (hs.child_subset (root_mem hv))
  have hat := hs.unlinked
  have hrep : At _ root ctx (.node c l s r') :=
    replace_at hat.repCtx hat.rep.2.2.2.1.kids hat.rep.2.2.2.2.kids hnd'
  rw [hs.root_eq, hs.color_eq, hy] at hrep
  simp only [Memory.setChild_adopt, write_adopt] at hrep ⊢
  rw [Memory.adopt_comm hyc, Memory.adopt_comm hlc] at hrep
  refine ⟨hrep, ?_, ?_⟩
  · intro w hw
    rw [mem_plug, not_or] at hw
    simp only [toList, List.mem_append, List.mem_cons, not_or] at hw
    have hwq : w ≠ q := fun hwq => hw.1.2.2 (hwq ▸ hs.parent_mem)
    have hwy : w ≠ y := fun hwy => hw.1.2.2 (hwy ▸ hyr)
    have hwc : w ∉ child.toList := fun hwc => hw.1.2.2 (hs.child_subset hwc)
    simp [*]
  · intro w hw
    simp [hw]

theorem run_erase_case3 {rl rr : ColorTree α} {cr : Color}
    (h : At m root ctx (.node c l x (.node cr rl y rr))) (hne : l ≠ .nil) (hrl : rl ≠ .nil)
    (hfirst : firstOf cr rl y rr [] = (path, cs, s, child)) (hfuel : path.length ≤ fuel) :
    ∃ m', (rbEraseAugmented fuel (some x) root).run m =
        pure (if child.root.isNone ∧ cs = .black then above path else none, m') ∧
      Moved m m' root ctx (.node c l s (plug path (child.paint .black))) := by
  obtain ⟨q, hq, hs⟩ := successor_firstOf h hrl hfirst
  have hnd : (plug ctx (branch .left c x l (.node cr rl y rr))).toList.Nodup := h.nodup
  simp only [nodup_plug, nodup_branch, disjoint_branch, hs.toList_eq, List.nodup_cons,
    List.disjoint_cons_right, List.disjoint_cons_left, List.mem_cons, not_or] at hnd
  have hrep : Rep m (above ctx) (branch .left c x l (branch .left cr y rl rr)) := h.rep
  simp only [rep_branch, root_branch] at hrep
  have hctx := h.repCtx
  have hlink := h.link
  have hyr : y ∈ (plug path (child.paint .black)).toList := root_mem hs.root_eq
  have hqr := hs.parent_mem
  have hl : m.rbLeft x = l.root := hrep.2.1
  have hr : m.rbRight x = some y := hrep.2.2.1
  have hyl : m.rbLeft y = rl.root := hrep.2.2.2.2.2.1
  have hxq : x ≠ q := fun hxq => hnd.1.2.1.2 (hxq ▸ hqr)
  have hxy : x ≠ y := fun hxy => hnd.1.2.1.2 (hxy ▸ hyr)
  have hsy : s ≠ y := fun hsy => hnd.1.2.2.2.1.1 (hsy ▸ hyr)
  have hql : q ∉ l.toList := fun hql => hnd.1.2.2.2.2.2 hql hqr
  have hyl' : y ∉ l.toList := fun hyl => hnd.1.2.2.2.2.2 hyl hyr
  have hqc : q ∉ around ctx := fun hqc => hnd.2.2.2.2.2 hqr hqc
  have hyc : y ∉ around ctx := fun hyc => hnd.2.2.2.2.2 hyr hyc
  have hword := hs.rbParentColor_eq
  have hfind : (findSuccessor fuel (some y) (m.rbLeft y)).run m =
      pure ((above path, some s, child.root), ((m.setChild .left q child.root).setChild
        (Dir.flip .left) s (some y)).adopt (some y) (some s) cr) := by
    cases rl with
    | nil => exact absurd rfl hrl
    | node cl ll v rl =>
      have hbelow : firstOf cl ll v rl [⟨.left, cr, y, rr⟩] = (path, cs, s, child) := by
        rwa [firstOf] at hfirst
      obtain ⟨k, rfl⟩ : ∃ k, fuel = k + 1 := Nat.exists_eq_add_one_of_ne_zero
        (Nat.ne_zero_of_lt (Nat.lt_of_lt_of_le (length_firstOf hbelow) hfuel))
      have hloop : (successorLoop (k + 1) (some y) (some v)).run m =
          (pure ((above path, some s), m) : Except Fault _) :=
        run_successorLoop hbelow hrep.2.2.2.2.2.2.2.1 hfuel
      have hstore := run_storeChild m .left q child.root
      have hstore' := run_storeChild (m.setChild .left q child.root) (Dir.flip .left) s (some y)
      have hword : (((m.setChild .left q child.root).setChild (Dir.flip .left) s
        (some y)).rbParentColor y) = Word.pack (some x) cr := by simp [*]
      simp only [storeChild, Dir.flip] at hstore hstore' hword
      simp only [findSuccessor, hyl, root_node, Option.isNone_some, Bool.false_eq_true, if_false,
        StateT.run_bind, hloop, pure_bind, run_loadRight, hs.rbRight_eq, hq, hstore, hstore',
        run_rbSetParent, hword, Word.color_pack]
      rfl
  refine ⟨_, ?_, successor_moved h hs rfl⟩
  rw [run_rbEraseAugmented_both (by simpa [hl, root_eq_none] using hne) hr, StateT.run_bind, hfind,
    pure_bind]
  rw [hq]
  exact run_takePlace (p := some x) (q := some q) (by simp [*]) (by simp [*]) (by simp [*])
    (by simp [*]) (by simp [*]) hne (by simp [*]) (by simp [*]) (by simp [*]) (by simp [*])
    (by simp [*]) (by simp [*])

/-- Case 1: at most a right child. -/
theorem run_erase_case1 (fuel : Nat) (h : At m root ctx (.node c .nil x r)) :
    ∃ m', (rbEraseAugmented fuel (some x) root).run m =
        pure (if r.root.isNone ∧ c = .black then above ctx else none, m') ∧
      Moved m m' root ctx (r.paint c) := by
  refine ⟨_, ?_, unlink_moved (d := .left) h c⟩
  obtain ⟨hw, hl, hr, -⟩ := h.rep
  rw [root_nil] at hl
  have hxc : x ∉ around ctx := fun hx =>
    (nodup_plug.mp h.nodup).2.2 (root_mem rfl) hx
  have hchange := run_rbChangeChild ctx h.repCtx h.link hxc r.root
  simp only [rbEraseAugmented, StateT.run_bind, run_loadRight, run_loadLeft, pure_bind, hl, hr,
    Option.isNone_none, if_true, run_loadParentColor, hw, Word.parent_pack, Word.color_pack, hchange]
  cases r with
  | nil => simp
  | node cr a y b => simp

/-- Still case 1: only a left child. -/
theorem run_erase_case1_left (h : At m root ctx (.node c l x .nil)) (hne : l ≠ .nil) :
    ∃ m', (rbEraseAugmented fuel (some x) root).run m = pure (none, m') ∧
      Moved m m' root ctx (l.paint c) := by
  refine ⟨_, ?_, unlink_moved (d := .right) h c⟩
  obtain ⟨hw, hl, hr, -⟩ := h.rep
  rw [root_nil] at hr
  have hxc : x ∉ around ctx := fun hx =>
    (nodup_plug.mp h.nodup).2.2 (root_mem rfl) hx
  have hctx := h.repCtx
  have hlink := h.link
  cases l with
  | nil => exact absurd rfl hne
  | node cl a y b =>
    have hdisj := (nodup_plug.mp h.nodup).2.2
    have hyc : y ∉ around ctx := fun hy => hdisj (by simp [toList]) hy
    have hchange : (rbChangeChild (some x) (some y) (above ctx) root).run
        (m.adopt (some y) (above ctx) c) = _ :=
      run_rbChangeChild ctx (by simp [hctx, hyc]) (by simp [hlink]) hxc (some y)
    rw [← write_adopt]
    simp only [rbEraseAugmented, StateT.run_bind, run_loadRight, run_loadLeft, pure_bind, hl, hr,
      root_node, Option.isNone_none, Option.isNone_some, Bool.false_eq_true, if_false, if_true,
      run_loadParentColor, hw, run_storeParentColor, Word.parent_pack, ← Memory.adopt_some, hchange,
      StateT.run_pure]

/-- `__rb_erase_augmented` takes the node out, and says where a black node is missing. -/
theorem run_rbEraseAugmented (h : At m root ctx (.node c l x r))
    (hfuel : (splice ctx c l r).1.length ≤ fuel) :
    ∃ m', (rbEraseAugmented fuel (some x) root).run m =
        pure (if (splice ctx c l r).2.2 then above (splice ctx c l r).1 else none, m') ∧
      Moved m m' root (splice ctx c l r).1 (splice ctx c l r).2.1 := by
  revert h hfuel
  fun_cases splice ctx c l r with
  | case1 =>
    intro h hfuel
    obtain ⟨m', hrun, hmoved⟩ := run_erase_case1 fuel h
    exact ⟨m', by simpa using hrun, hmoved⟩
  | case2 r hne =>
    intro h hfuel
    obtain ⟨m', hrun, hmoved⟩ := run_erase_case1 fuel h
    rw [if_neg fun hr => hne (root_eq_none.mp (Option.isNone_iff_eq_none.mp hr.1))] at hrun
    exact ⟨m', hrun, hmoved⟩
  | case3 l hne =>
    intro h hfuel
    exact run_erase_case1_left h hne
  | case4 l cr rl y rr hne path cs s child hfirst =>
    intro h hfuel
    have hgoal : ∀ m', Moved m m' root ctx (.node c l s (plug path (child.paint .black))) →
        Moved m m' root (path ++ ⟨.right, c, s, l⟩ :: ctx) (child.paint .black) := by
      intro m' hmoved
      rw [moved_plug, plug_append]
      exact moved_plug.mp (moved_fill (f := ⟨.right, c, s, l⟩).mpr hmoved)
    rw [List.length_append] at hfuel
    cases rl with
    | nil =>
      cases hfirst
      obtain ⟨m', hrun, hmoved⟩ := run_erase_case2 fuel h hne
      exact ⟨m', by simpa [and_comm, above] using hrun, hgoal m' hmoved⟩
    | node cl a v b =>
      obtain ⟨m', hrun, hmoved⟩ := run_erase_case3 h hne (by simp) hfirst (Nat.le_of_add_right_le hfuel)
      obtain ⟨cq, q, sq, ps, rfl⟩ := dir_firstOf hfirst (by simp)
      exact ⟨m', by simpa [and_comm, above] using hrun, hgoal m' hmoved⟩

/-- The second half of `rb_erase`. -/
def rebalanceAt (fuel : Nat) (rebalance : Option α) (root : ρ) : Prog α W ρ Unit :=
  if rebalance.isSome then rbEraseColor fuel rebalance root else pure ()

theorem rbErase_eq (fuel : Nat) (node : Option α) (root : ρ) :
    (rbErase fuel node root : Prog α W ρ Unit) =
      rbEraseAugmented fuel node root >>= fun rebalance => rebalanceAt fuel rebalance root := rfl

theorem run_rebalanceAt {deficit : Bool} (h : At m root ctx t)
    (hdeficit : deficit = true → t = .nil ∧ ∃ p, Around ctx p 1) (hfuel : ctx.length ≤ fuel) :
    ∃ m', (rebalanceAt fuel (if deficit then above ctx else none) root).run m = pure ((), m') ∧
      Moved m m' root [] (if deficit then eraseFix ctx t else plug ctx t) := by
  cases deficit with
  | false => exact ⟨m, rfl, moved_plug.mp h.moved_refl⟩
  | true =>
    obtain ⟨rfl, p, ha⟩ := hdeficit rfl
    cases ctx with
    | nil => exact ⟨m, rfl, h.moved_refl⟩
    | cons f ctx => exact run_rbEraseColorLoop ⟨h, ⟨p, 0, ha, .nil⟩, List.cons_ne_nil _ _⟩ hfuel

/-- `rb_erase` computes the balanced tree without the node. -/
theorem run_rbErase {N : Nat} (h : At m root ctx (.node c l x r))
    (hb : Balanced (plug ctx (.node c l x r)) .black N)
    (hfuel : (splice ctx c l r).1.length ≤ fuel) :
    ∃ m', (rbErase fuel (some x) root).run m = pure ((), m') ∧
      Moved m m' root [] (eraseNode ctx c l r) := by
  obtain ⟨m₁, hrun, hmoved⟩ := run_rbEraseAugmented h hfuel
  obtain ⟨m', hrest, hmoved'⟩ := run_rebalanceAt hmoved.toAt (splice_deficit hb) hfuel
  refine ⟨m', ?_, hmoved.trans hmoved' ((toList_eraseNode ..).trans (toList_splice ..).symm)⟩
  rw [rbErase_eq, StateT.run_bind, hrun, pure_bind, hrest]

end Splice
end CommonProject.RBTree

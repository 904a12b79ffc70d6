import CommonProject.RBTree.Frame
import CommonProject.RBTree.Iteration

/-! The loop in post-order, whose body may spoil the node that it visits. -/
namespace CommonProject.RBTree
open Foundations.RedBlack
variable {α W ρ : Type}

def rbLeftDeepestNode : Nat → Option α → Prog α W ρ (Option α)
  | 0, _ => throw .outOfFuel
  | fuel + 1, node => do
    let left ← loadLeft node
    if left.isSome then rbLeftDeepestNode fuel left
    else
      let right ← loadRight node
      if right.isSome then rbLeftDeepestNode fuel right
      else return node

def rbFirstPostorder (fuel : Nat) (root : ρ) : Prog α W ρ (Option α) := do
  let n ← loadNode root
  if n.isNone then return none
  else rbLeftDeepestNode fuel n

section Programs
variable [DecidableEq α]

def rbNextPostorder [Word α W] (fuel : Nat) (node : Option α) : Prog α W ρ (Option α) := do
  if node.isNone then return none
  else
    let parent ← rbParent node
    if parent.isSome then
      if node = (← loadLeft parent) then
        let right ← loadRight parent
        if right.isSome then
          -- from the parent's left node all the way down below its right node
          rbLeftDeepestNode fuel right
        else return parent
      else return parent
    else return parent

/-- `rbtree_postorder_for_each_entry_safe`. -/
def eachPostorder [Word α W] (body : α → Prog α W ρ Unit) (fuel : Nat) (root : ρ) :
    Prog α W ρ (List α) := do
  let n ← rbFirstPostorder fuel root
  eachLoop (rbNextPostorder fuel) body fuel n

def overwrite (values : α → Memory α W ρ → W × Option α × Option α) (x : α) : Prog α W ρ Unit :=
  modify fun m => m.spoil x (values x m)

end Programs

/-- Parent links and child links agree. Colours do not matter. -/
def Linked [Word α W] (m : Memory α W ρ) : Option α → ColorTree α → Prop
  | _, .nil => True
  | p, .node _ l x r => Word.parent (m.rbParentColor x) = p ∧ m.rbLeft x = l.root ∧
      m.rbRight x = r.root ∧ Linked m (some x) l ∧ Linked m (some x) r

section Run
open ColorTree
variable [Word α W] {m m' : Memory α W ρ} {root : ρ} {p : Option α} {x : α} {t : ColorTree α}
  {ctx : List (Frame α)} {fuel : Nat} {a b : List α}

private theorem linked_congr (h : ∀ x ∈ t.toList, SameAt m m' x) :
    Linked m' p t ↔ Linked m p t := by
  induction t generalizing p with
  | nil => rfl
  | node c l x r ihl ihr =>
    simp only [toList, List.mem_append, List.mem_cons] at h
    obtain ⟨h1, h2, h3⟩ := h x (.inr (.inl rfl))
    simp only [Linked, h1, h2, h3, ihl fun y hy => h y (.inl hy),
      ihr fun y hy => h y (.inr (.inr hy))]

/-- The descent to the left, else to the right, ends at the first node in post-order. -/
private theorem run_rbLeftDeepestNode (h : Linked m p t) (hx : t.root = some x)
    (hfuel : t.toList.length ≤ fuel) :
    (rbLeftDeepestNode fuel (some x)).run m = (pure (t.postorder.head?, m) : Except Fault _) := by
  induction fuel generalizing t x p with
  | zero =>
    cases t with
    | nil => cases hx
    | node c l y r => simp [toList] at hfuel
  | succ fuel ih =>
    cases t with
    | nil => cases hx
    | node c l y r =>
      obtain rfl : y = x := Option.some.inj hx
      obtain ⟨-, hl, hr, hll, hlr⟩ := h
      rw [toList, List.length_append, List.length_cons] at hfuel
      rw [rbLeftDeepestNode, StateT.run_bind, run_loadLeft, pure_bind, hl, postorder]
      cases hleft : l.root with
      | some v =>
        rw [List.head?_append_of_ne_nil _ (postorder_ne_nil hleft)]
        exact ih hll hleft (by omega)
      | none =>
        obtain rfl := root_eq_none.mp hleft
        simp only [Option.isSome_none, Bool.false_eq_true, if_false, StateT.run_bind, run_loadRight,
          pure_bind, hr, postorder, List.nil_append]
        cases hright : r.root with
        | some v =>
          rw [List.head?_append_of_ne_nil _ (postorder_ne_nil hright)]
          exact ih hlr hright (by omega)
        | none =>
          obtain rfl := root_eq_none.mp hright
          rfl

theorem run_rbFirstPostorder (h : Linked m p t) (hlink : m.rbNode root = t.root)
    (hfuel : t.toList.length ≤ fuel) :
    (rbFirstPostorder fuel root).run m = (pure (t.postorder.head?, m) : Except Fault _) := by
  rw [rbFirstPostorder, StateT.run_bind, run_loadNode hlink, pure_bind]
  cases hroot : t.root with
  | none =>
    obtain rfl := root_eq_none.mp hroot
    rfl
  | some v => exact run_rbLeftDeepestNode h hroot hfuel

private theorem linked_hole (h : Linked m none (plug ctx t)) : Linked m (above ctx) t := by
  induction ctx generalizing t with
  | nil => exact h
  | cons f ctx ih =>
    obtain ⟨d, c, y, sib⟩ := f
    have hfill := ih h
    cases d with
    | left => exact hfill.2.2.2.1
    | right => exact hfill.2.2.2.2

variable [DecidableEq α]

/-- A step goes to the next node in post-order. It needs the nodes still to come only. -/
theorem run_rbNextPostorder (h : Linked m none t) (hnd : t.toList.Nodup)
    (hlist : t.postorder = b ++ x :: a) (hsame : ∀ y ∈ x :: a, SameAt m m' y)
    (hfuel : t.toList.length ≤ fuel) :
    (rbNextPostorder fuel (some x)).run m' = (pure (a.head?, m') : Except Fault _) := by
  have hmem : x ∈ t.toList := by
    rw [← (perm_postorder t).mem_iff, hlist]
    simp
  obtain ⟨ctx, c, l, r, rfl⟩ := exists_plug hmem
  obtain ⟨b', hb'⟩ := postorder_plug ctx (node c l x r)
  have hsplit : (plug ctx (node c l x r)).postorder =
      (b' ++ (l.postorder ++ r.postorder)) ++ x :: onward ctx := by
    rw [hb']
    simp [postorder]
  obtain ⟨-, rfl⟩ := append_cons_unique ((perm_postorder _).nodup_iff.mpr hnd) hlist hsplit
  obtain ⟨hx, hrest⟩ := List.forall_mem_cons.mp hsame
  have hparent : Word.parent (m'.rbParentColor x) = above ctx := by
    rw [hx.1, (linked_hole h).1]
  simp only [rbNextPostorder, Option.isNone_some, Bool.false_eq_true, if_false, StateT.run_bind,
    run_rbParent, pure_bind, hparent]
  cases ctx with
  | nil => rfl
  | cons f ctx =>
    have hfill := linked_hole (t := f.fill (node c l x r)) h
    have hv : SameAt m m' f.value := hrest _ (by simp [onward])
    obtain ⟨d, cf, v, sib⟩ := f
    have hload : (loadLeft (some v)).run m' = (pure (m.rbLeft v, m') : Except Fault _) := by
      rw [run_loadLeft, hv.2.1]
    simp only [above, Option.isSome_some, if_true, StateT.run_bind, hload, pure_bind]
    cases d with
    | left =>
      obtain ⟨-, hvl, hvr, -, hright⟩ := hfill
      have hsib : Linked m' (some v) sib := by
        refine (linked_congr fun y hy => hrest y ?_).mpr hright
        rw [onward]
        exact List.mem_append_left _ ((perm_postorder sib).mem_iff.mpr hy)
      rw [hvl, root_node, if_pos rfl, StateT.run_bind, run_loadRight, pure_bind, hv.2.2, hvr, onward]
      cases hroot : sib.root with
      | none =>
        obtain rfl := root_eq_none.mp hroot
        rfl
      | some u =>
        rw [List.head?_append_of_ne_nil _ (postorder_ne_nil hroot)]
        exact run_rbLeftDeepestNode hsib hroot
          ((length_lt_toList_plug_branch (d := .left) ctx).le.trans hfuel)
    | right =>
      obtain ⟨-, hvl, -⟩ := hfill
      rw [plug] at hnd
      have hne : some x ≠ m.rbLeft v := by
        rw [hvl]
        have hdisj := (nodup_branch (d := .right).mp (nodup_plug.mp hnd).1).2.2.2.2
        exact root_ne (hdisj (root_mem (root_node ..)))
      rw [if_neg hne, onward]
      rfl

/-- From any node on, the loop needs the nodes still to come only, so the body may have spoiled
all others. -/
private theorem run_eachLoop_overwrite {k : Nat}
    (values : α → Memory α W ρ → W × Option α × Option α)
    (h : Linked m none t) (hnd : t.toList.Nodup) (hlist : t.postorder = b ++ a)
    (hsame : ∀ y ∈ a, SameAt m m' y) (hfuel : t.toList.length ≤ fuel) (hk : a.length < k) :
    ∃ m₁, (eachLoop (rbNextPostorder fuel) (overwrite values) k a.head?).run m' = .ok (a, m₁) := by
  induction a generalizing b k m' with
  | nil =>
    obtain ⟨k, rfl⟩ := Nat.exists_eq_add_one_of_ne_zero (Nat.ne_zero_of_lt hk)
    exact ⟨m', rfl⟩
  | cons x a ih =>
    obtain ⟨k, rfl⟩ := Nat.exists_eq_add_one_of_ne_zero (Nat.ne_zero_of_lt hk)
    have hx : x ∉ a := by
      have hnd' := (perm_postorder t).nodup_iff.mpr hnd
      rw [hlist, List.nodup_middle, List.nodup_cons] at hnd'
      exact fun hx => hnd'.1 (List.mem_append_right _ hx)
    have hstep := run_rbNextPostorder h hnd hlist hsame hfuel
    have hrest : ∀ y ∈ a, SameAt m (m'.spoil x (values x m')) y := by
      intro y hy
      have hne : y ≠ x := by
        rintro rfl
        exact hx hy
      exact (sameAt_spoil_right hne).mpr (hsame y (List.mem_cons_of_mem x hy))
    obtain ⟨m₁, hloop⟩ := ih (b := b ++ [x]) (by simp [hlist]) hrest (Nat.lt_of_succ_lt_succ hk)
    exact ⟨m₁, run_eachLoop_cons hstep rfl hloop⟩

/-- The loop over any linked tree visits every node once, the nodes below it first, whatever the
body writes to the nodes that it visits, and from then on whatever else these hold. -/
theorem postorder_with_overwrites (h : Linked m none t) (hlink : m.rbNode root = t.root)
    (hnd : t.toList.Nodup) (hfuel : t.toList.length < fuel) :
    t.postorder.Perm t.toList ∧
    (∀ ctx c l x r, t = plug ctx (node c l x r) → ∀ y, y ∈ l.toList ∨ y ∈ r.toList →
      [y, x].Sublist t.postorder) ∧
    ∀ values : α → Memory α W ρ → W × Option α × Option α,
      (∃ m', (eachPostorder (overwrite values) fuel root).run m = .ok (t.postorder, m')) ∧
      ∀ visited rest, t.postorder = visited ++ rest → ∀ m' : Memory α W ρ,
        (∀ y ∈ rest, SameAt m m' y) → ∃ m'',
          (eachLoop (rbNextPostorder fuel) (overwrite values) fuel rest.head?).run m' =
            .ok (rest, m'') := by
  have hlen := (perm_postorder t).length_eq
  refine ⟨perm_postorder t, ?_, fun values => ⟨?_, fun visited rest hlist m' hsame => ?_⟩⟩
  · rintro ctx c l x r rfl y hy
    exact postorder_sublist ctx hy
  · rw [eachPostorder, StateT.run_bind, run_rbFirstPostorder h hlink hfuel.le, pure_bind]
    exact run_eachLoop_overwrite (b := []) values h hnd rfl (fun _ _ => .refl ..) hfuel.le
      (hlen.trans_lt hfuel)
  · refine run_eachLoop_overwrite values h hnd hlist hsame hfuel.le ?_
    rw [hlist, List.length_append] at hlen
    omega

/-- Three nodes with one child at most, of which each is spoiled with links to itself. -/
theorem postorder_of_three :
    let m : Memory Nat (Option Nat × Color) Unit :=
      ⟨fun x => (if x = 3 then none else some (x + 1), .red), fun x => if x = 2 then some 1 else none,
        fun x => if x = 3 then some 2 else none, fun _ => some 3⟩
    ∃ m', (eachPostorder (overwrite fun x _ => ((some x, .black), some x, some x)) 4 ()).run m =
      .ok ([1, 2, 3], m') := by
  intro m
  have hlinked : Linked m none
      (.node .red (.node .red .nil 2 (.node .red .nil 1 .nil)) 3 (.nil : ColorTree Nat)) :=
    ⟨rfl, rfl, rfl, ⟨rfl, rfl, rfl, trivial, rfl, rfl, rfl, trivial, trivial⟩, trivial⟩
  have hfuel : 3 < 4 := by decide
  exact ((postorder_with_overwrites hlinked rfl (by decide) hfuel).2.2 _).1

end Run
end CommonProject.RBTree

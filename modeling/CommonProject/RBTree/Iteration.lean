import CommonProject.RBTree.Client
import CommonProject.RBTree.Walks

/-! The loops over all nodes in order, also where they erase nodes on the way. -/
namespace CommonProject.RBTree
open Foundations Foundations.RedBlack Foundations.RedBlack.ColorTree
variable {α W ρ : Type}

/-- A loop that takes the next node before its body sees the current one, with the nodes visited. -/
def eachLoop (next : Option α → Prog α W ρ (Option α)) (body : α → Prog α W ρ Unit) :
    Nat → Option α → Prog α W ρ (List α)
  | 0, _ => throw .outOfFuel
  | fuel + 1, pos => do
    match pos with
    | none => return []
    | some x =>
      let n ← next pos
      body x
      let rest ← eachLoop next body fuel n
      return x :: rest

/-- One turn of the loop. -/
theorem run_eachLoop_cons {next : Option α → Prog α W ρ (Option α)} {body : α → Prog α W ρ Unit}
    {m m₁ m' : Memory α W ρ} {x : α} {n : Option α} {k : Nat} {l : List α}
    (hnext : (next (some x)).run m = .ok (n, m)) (hbody : (body x).run m = .ok ((), m₁))
    (hrest : (eachLoop next body k n).run m₁ = .ok (l, m')) :
    (eachLoop next body (k + 1) (some x)).run m = .ok (x :: l, m') := by
  have hturn : (eachLoop next body (k + 1) (some x)).run m =
      ((eachLoop next body k n).run m₁ >>= fun r => pure (x :: r.1, r.2)) := by
    simp only [eachLoop, StateT.run_bind]
    rw [hnext]
    change ((body x).run m >>= _) = _
    rw [hbody]
    rfl
  rw [hturn, hrest]
  rfl

variable [DecidableEq α] [DecidableEq W] [Word α W]

def eachForward (body : α → Prog α W ρ Unit) (fuel : Nat) (root : ρ) : Prog α W ρ (List α) := do
  let n ← rbFirst fuel root
  eachLoop (rbNext fuel) body fuel n

def eachBackward (body : α → Prog α W ρ Unit) (fuel : Nat) (root : ρ) : Prog α W ρ (List α) := do
  let n ← rbLast fuel root
  eachLoop (rbPrev fuel) body fuel n

def eachSide (d : Dir) (body : α → Prog α W ρ Unit) (fuel : Nat) (root : ρ) :
    Prog α W ρ (List α) := do
  let n ← startSide d fuel root
  eachLoop (stepSide d fuel) body fuel n

private theorem eachForward_eq (body : α → Prog α W ρ Unit) (fuel : Nat) (root : ρ) :
    eachForward body fuel root = eachSide .left body fuel root := by
  have hnext : (rbNext fuel : Option α → Prog α W ρ _) = stepSide .left fuel :=
    funext (rbNext_eq fuel)
  rw [eachForward, eachSide, rbFirst_eq, hnext]

private theorem eachBackward_eq (body : α → Prog α W ρ Unit) (fuel : Nat) (root : ρ) :
    eachBackward body fuel root = eachSide .right body fuel root := by
  have hprev : (rbPrev fuel : Option α → Prog α W ρ _) = stepSide .right fuel :=
    funext (rbPrev_eq fuel)
  rw [eachBackward, eachSide, rbLast_eq, hprev]

def eraseIf [DecidableEq ρ] (chosen : α → Bool) (fuel : Nat) (root : ρ) (x : α) :
    Prog α W ρ Unit :=
  if chosen x then rbErase fuel (some x) root else pure ()

section Loops
variable [DecidableEq ρ] {m : Memory α W ρ} {root : ρ} {live : List α} {t : ColorTree α} {d : Dir}
  {a b : List α} {fuel : Nat}

omit [DecidableEq α] [DecidableEq W] [DecidableEq ρ] in
private theorem RedBlackTree.self (h : RedBlackTree m root live t) :
    RedBlackTree m root t.toList t :=
  ⟨h.rbNode, h.rep, h.nodup, .refl _, h.balanced⟩

omit [DecidableEq W] in
/-- The body takes the current node out, or leaves the tree. -/
private theorem run_eraseIf (chosen : α → Bool) {x : α} (h : RedBlackTree m root t.toList t)
    (hlist : t.listFrom d = b ++ x :: a) (hfuel : t.toList.length < fuel) :
    ∃ m' t', (eraseIf chosen fuel root x).run m = .ok ((), m') ∧
      RedBlackTree m' root t'.toList t' ∧
      t'.listFrom d = b ++ [x].filter (fun x => !chosen x) ++ a := by
  rw [eraseIf]
  cases hx : chosen x with
  | false => exact ⟨m, t, rfl, h, by simp [hlist, hx]⟩
  | true =>
    have hmem : x ∈ t.toList := by
      rw [← (perm_listFrom t d).mem_iff, hlist]
      simp
    obtain ⟨ctx, c, l, r, rfl⟩ := exists_plug hmem
    obtain ⟨m', hrun, htree⟩ := erase_redBlackTree h hfuel.le
    refine ⟨m', _, hrun, htree.self, ?_⟩
    rw [listFrom_erase h.nodup hlist (toList_eraseNode_eq_erase h.nodup)]
    simp [hx]

/-- From any node on, the loop visits what is left of the list and erases the chosen nodes. -/
private theorem run_eachLoop (chosen : α → Bool) {k : Nat} (h : RedBlackTree m root t.toList t)
    (hlist : t.listFrom d = b ++ a) (hfuel : t.toList.length < fuel) (hk : a.length < k) :
    ∃ m' t', (eachLoop (stepSide d fuel) (eraseIf chosen fuel root) k a.head?).run m = .ok (a, m') ∧
      RedBlackTree m' root t'.toList t' ∧
      t'.listFrom d = b ++ a.filter (fun x => !chosen x) := by
  induction a generalizing m t b k with
  | nil =>
    obtain ⟨k, rfl⟩ := Nat.exists_eq_add_one_of_ne_zero (Nat.ne_zero_of_lt hk)
    exact ⟨m, t, rfl, h, hlist⟩
  | cons x a ih =>
    obtain ⟨k, rfl⟩ := Nat.exists_eq_add_one_of_ne_zero (Nat.ne_zero_of_lt hk)
    obtain ⟨m₁, t₁, hbody, htree, hlist₁⟩ := run_eraseIf chosen h hlist hfuel
    have hkept : ([x].filter fun x => !chosen x).length ≤ 1 := List.length_filter_le ..
    have hle : t₁.toList.length < fuel := by
      rw [← (perm_listFrom t₁ d).length_eq, hlist₁, List.length_append, List.length_append]
      rw [← (perm_listFrom t d).length_eq, hlist, List.length_append, List.length_cons] at hfuel
      omega
    obtain ⟨m', t', hrest, htree', hlist'⟩ := ih htree hlist₁ hle (Nat.lt_of_succ_lt_succ hk)
    refine ⟨m', t', run_eachLoop_cons (run_stepSide h.toAt hlist hfuel) hbody hrest, htree', ?_⟩
    rw [hlist', List.append_assoc, ← List.filter_append, List.singleton_append]

omit [DecidableEq ρ] in
private theorem run_eachLoop_pure {k : Nat} (h : At m root [] t) (hlist : t.listFrom d = b ++ a)
    (hfuel : t.toList.length < fuel) (hk : a.length < k) :
    (eachLoop (stepSide d fuel) (fun _ => pure ()) k a.head?).run m = .ok (a, m) := by
  induction a generalizing b k with
  | nil =>
    obtain ⟨k, rfl⟩ := Nat.exists_eq_add_one_of_ne_zero (Nat.ne_zero_of_lt hk)
    rfl
  | cons x a ih =>
    obtain ⟨k, rfl⟩ := Nat.exists_eq_add_one_of_ne_zero (Nat.ne_zero_of_lt hk)
    have hrest := ih (b := b ++ [x]) (by simp [hlist]) (Nat.lt_of_succ_lt_succ hk)
    exact run_eachLoop_cons (run_stepSide h hlist hfuel) rfl hrest

omit [DecidableEq ρ] in
/-- The loop over the nodes from one side. -/
private theorem run_eachSide_pure (d : Dir) (h : RedBlackTree m root live t)
    (hfuel : live.length < fuel) :
    (eachSide d (fun _ => pure ()) fuel root).run m = .ok (t.listFrom d, m) := by
  rw [← h.perm.length_eq] at hfuel
  rw [eachSide, StateT.run_bind, run_startSide h.toAt hfuel.le, pure_bind]
  exact run_eachLoop_pure (b := []) h.toAt rfl hfuel ((perm_listFrom t d).length_eq.trans_lt hfuel)

/-- The loop that erases on its way. -/
private theorem run_eachSide_erase (d : Dir) (chosen : α → Bool) (h : RedBlackTree m root live t)
    (hfuel : live.length < fuel) :
    ∃ m', (eachSide d (eraseIf chosen fuel root) fuel root).run m = .ok (t.listFrom d, m') ∧
      Inorder m' root (t.toList.filter fun x => !chosen x) := by
  rw [← h.perm.length_eq] at hfuel
  obtain ⟨m', t', hrun, htree, hlist⟩ := run_eachLoop (b := []) chosen h.self (t := t) (d := d) rfl hfuel
    ((perm_listFrom t d).length_eq.trans_lt hfuel)
  refine ⟨m', ?_, ?_⟩
  · rw [eachSide, StateT.run_bind, run_startSide h.toAt hfuel.le, pure_bind]
    exact hrun
  · have horder : t'.toList = t.toList.filter fun x => !chosen x := by
      cases d with
      | left => exact hlist
      | right =>
        have hrev : t'.toList.reverse = t.toList.reverse.filter fun x => !chosen x := hlist
        rw [List.filter_reverse] at hrev
        exact List.reverse_injective hrev
    exact horder ▸ htree.inorder

omit [DecidableEq ρ] in
/-- One node steps to another when they are neighbours in the list. -/
private theorem run_stepSide_iff {x y : α} (h : RedBlackTree m root live t) (hx : x ∈ live)
    (hfuel : live.length < fuel) : (stepSide d fuel (some x)).run m = .ok (some y, m) ↔
      ∃ u v, t.listFrom d = u ++ x :: y :: v := by
  rw [← h.perm.length_eq] at hfuel
  constructor
  · intro hrun
    rw [← h.perm.mem_iff, ← (perm_listFrom t d).mem_iff] at hx
    obtain ⟨u, a, hlist⟩ := List.append_of_mem hx
    rw [run_stepSide h.toAt hlist hfuel] at hrun
    cases a with
    | nil => cases hrun
    | cons z v =>
      cases hrun
      exact ⟨u, v, hlist⟩
  · rintro ⟨u, v, hlist⟩
    exact run_stepSide h.toAt hlist hfuel

end Loops

section Runs
variable [DecidableEq ρ] {root : ρ} {s : State α W ρ}

/-- In every run from `RB_ROOT`, the loops visit the nodes in order and in reverse order, the steps
undo each other, and a loop may erase any of the nodes it is at. -/
theorem iteration_in_every_run {m : Memory α W ρ} (h₀ : m.rbNode root = none)
    (h : Reachable (step root) ⟨m, []⟩ s) :
    ∃ l, Inorder s.memory root l ∧ l.Nodup ∧ l.Perm s.live ∧ ∀ fuel, s.live.length < fuel →
      (eachForward (fun _ => pure ()) fuel root).run s.memory = .ok (l, s.memory) ∧
      (eachBackward (fun _ => pure ()) fuel root).run s.memory = .ok (l.reverse, s.memory) ∧
      (∀ a ∈ s.live, ∀ b ∈ s.live,
        (rbNext fuel (some a)).run s.memory = .ok (some b, s.memory) ↔
          (rbPrev fuel (some b)).run s.memory = .ok (some a, s.memory)) ∧
      ∀ chosen : α → Bool,
        (∃ m', (eachForward (eraseIf chosen fuel root) fuel root).run s.memory = .ok (l, m') ∧
          Inorder m' root (l.filter fun x => !chosen x)) ∧
        ∃ m', (eachBackward (eraseIf chosen fuel root) fuel root).run s.memory =
            .ok (l.reverse, m') ∧
          Inorder m' root (l.filter fun x => !chosen x) := by
  obtain ⟨t, ht⟩ := reachable_redBlackTree h₀ h
  refine ⟨t.toList, ht.inorder, ht.nodup, ht.perm, fun fuel hfuel => ⟨?_, ?_, ?_, ?_⟩⟩
  · rw [eachForward_eq]
    exact run_eachSide_pure .left ht hfuel
  · rw [eachBackward_eq]
    exact run_eachSide_pure .right ht hfuel
  · intro a ha b hb
    rw [rbNext_eq, rbPrev_eq, run_stepSide_iff ht ha hfuel, run_stepSide_iff ht hb hfuel]
    constructor
    · rintro ⟨u, v, hlist⟩
      refine ⟨v.reverse, u.reverse, ?_⟩
      exact (congrArg List.reverse hlist).trans (by simp)
    · rintro ⟨u, v, hlist⟩
      refine ⟨v.reverse, u.reverse, ?_⟩
      exact (List.reverse_reverse _).symm.trans ((congrArg List.reverse hlist).trans (by simp))
  · intro chosen
    rw [eachForward_eq, eachBackward_eq]
    exact ⟨run_eachSide_erase .left chosen ht hfuel, run_eachSide_erase .right chosen ht hfuel⟩

/-- Three nodes, of which the loop erases the first and the last. -/
theorem iteration_over_three :
    ∃ (s : State Address (BitVec 64) Unit) (l : List Address), l.Perm s.live ∧
      s.live = [⟨8#64, by decide⟩, ⟨48#64, by decide⟩, ⟨24#64, by decide⟩] ∧
      (eachForward (fun _ => pure ()) 4 ()).run s.memory = .ok (l, s.memory) ∧
      ∃ m', (eachForward (eraseIf (fun x => decide (x.1 ≠ 24#64)) 4 ()) 4 ()).run s.memory =
          .ok (l, m') ∧
        Inorder m' () (l.filter fun x => !decide (x.1 ≠ 24#64)) := by
  have hr := Reachable.get (step ()) (⟨⟨fun _ => 0#64, fun _ => none, fun _ => none, fun _ => none⟩, []⟩ :
      State Address (BitVec 64) Unit)
    [(.insert ⟨8#64, by decide⟩ none (.rbNode ()), 1),
      (.insert ⟨48#64, by decide⟩ (some ⟨8#64, by decide⟩) (.rbRight ⟨8#64, by decide⟩), 2),
      (.insert ⟨24#64, by decide⟩ (some ⟨48#64, by decide⟩) (.rbLeft ⟨48#64, by decide⟩), 3)] rfl
  obtain ⟨l, -, -, hperm, hloops⟩ := iteration_in_every_run rfl hr
  obtain ⟨hforward, -, -, herase⟩ := hloops 4 (by decide)
  exact ⟨_, l, hperm, rfl, hforward, (herase _).1⟩

end Runs
end CommonProject.RBTree

import CommonProject.Foundations.Height
import CommonProject.RBTree.Client
import CommonProject.RBTree.Postorder

/-! The loop in post-order with a body that erases, which may miss nodes. -/
namespace CommonProject.RBTree
open Foundations Foundations.RedBlack Foundations.RedBlack.ColorTree
variable {α W ρ : Type}

section Small
variable {t : ColorTree α} {x : α} {a : List α} {n N : Nat} {c : Color}

private theorem red_leaf_of_no_black (h : Balanced t c 0) :
    t = .nil ∨ ∃ x, t = node .red .nil x .nil := by
  cases h with
  | nil => exact .inl rfl
  | red hl hr =>
    cases hl
    cases hr
    exact .inr ⟨_, rfl⟩

private theorem black_leaf_of_one_node (h : Balanced t c (n + 1)) (hlen : t.toList.length ≤ 1) :
    ∃ x, t = node .black .nil x .nil := by
  have hpow := h.two_pow_le
  cases h with
  | red hl hr =>
    have hl' := hl.two_pow_le
    have hone : 1 ≤ 2 ^ n := Nat.one_le_two_pow
    simp only [toList, List.length_append, List.length_cons, Nat.pow_succ] at hlen hl'
    omega
  | @black l r _ _ _ _ hl hr =>
    simp only [toList, List.length_append, List.length_cons] at hlen
    obtain rfl : l = .nil := by
      cases l with
      | nil => rfl
      | node => simp only [toList, List.length_append, List.length_cons] at hlen; omega
    obtain rfl : r = .nil := by
      cases r with
      | nil => rfl
      | node => simp only [toList, List.length_append, List.length_cons] at hlen; omega
    exact ⟨_, rfl⟩

private theorem root_of_postorder_nil (h : t.postorder = []) : t.root = none := by
  cases hroot : t.root with
  | none => rfl
  | some v => exact absurd h (postorder_ne_nil hroot)

/-- With three nodes at most, erasing the first node in post-order leaves the others in post-order. -/
private theorem erase_first_small (h : Balanced t .black N) (hlen : t.toList.length ≤ 3)
    (hlist : t.postorder = x :: a) :
    ∃ ctx c l r, t = plug ctx (node c l x r) ∧ (eraseNode ctx c l r).postorder.head? = a.head? := by
  cases h with
  | nil => cases hlist
  | @black l r y c₁ c₂ m hl hr =>
    have hsize : l.toList.length + r.toList.length ≤ 2 := by
      simp only [toList, List.length_append, List.length_cons] at hlen
      omega
    cases m with
    | zero =>
      rcases red_leaf_of_no_black hl with rfl | ⟨u, rfl⟩ <;>
        rcases red_leaf_of_no_black hr with rfl | ⟨v, rfl⟩ <;> cases hlist
      · exact ⟨[], _, _, _, rfl, rfl⟩
      · exact ⟨[⟨.right, .black, y, .nil⟩], _, _, _, rfl, rfl⟩
      · exact ⟨[⟨.left, .black, y, .nil⟩], _, _, _, rfl, rfl⟩
      · exact ⟨[⟨.left, .black, y, node .red .nil v .nil⟩], _, _, _, rfl, rfl⟩
    | succ m =>
      have hpow := hl.two_pow_le
      have hpow' := hr.two_pow_le
      have hone : 1 ≤ 2 ^ m := Nat.one_le_two_pow
      simp only [Nat.pow_succ] at hpow hpow'
      obtain ⟨u, rfl⟩ := black_leaf_of_one_node hl (by omega)
      obtain ⟨v, rfl⟩ := black_leaf_of_one_node hr (by omega)
      cases hlist
      exact ⟨[⟨.left, .black, y, node .black .nil v .nil⟩], _, _, _, rfl, rfl⟩

/-- Some place of the node, and the first one for a small tree. -/
private theorem exists_place (h : Balanced t .black N) {b : List α}
    (hlist : t.postorder = b ++ x :: a) :
    ∃ ctx c l r, t = plug ctx (node c l x r) ∧ (t.toList.length ≤ 3 → b = [] →
      (eraseNode ctx c l r).postorder.head? = a.head?) := by
  by_cases hsmall : t.toList.length ≤ 3 ∧ b = []
  · obtain ⟨hlen, rfl⟩ := hsmall
    obtain ⟨ctx, c, l, r, ht, hfirst⟩ := erase_first_small h hlen hlist
    exact ⟨ctx, c, l, r, ht, fun _ _ => hfirst⟩
  · have hmem : x ∈ t.toList := by
      rw [← (perm_postorder t).mem_iff, hlist]
      simp
    obtain ⟨ctx, c, l, r, ht⟩ := exists_plug hmem
    exact ⟨ctx, c, l, r, ht, fun hlen hb => absurd ⟨hlen, hb⟩ hsmall⟩

end Small

section Loop
variable [Word α W] {m : Memory α W ρ} {root : ρ} {p : Option α} {live : List α} {t : ColorTree α}
  {x : α} {fuel k : Nat}

private theorem Rep.linked (h : Rep m p t) : Linked m p t := by
  induction t generalizing p with
  | nil => trivial
  | node c l x r ihl ihr =>
    obtain ⟨hw, hl, hr, hll, hlr⟩ := h
    exact ⟨by rw [hw, Word.parent_pack], hl, hr, ihl hll, ihr hlr⟩

variable [DecidableEq α] [DecidableEq ρ]

/-- From any linked node on, the loop ends, visits linked nodes only, none of them twice, and leaves
a red-black tree of the others. From the first of three nodes at most it visits all. -/
private theorem run_eachErase {b a : List α} (h : RedBlackTree m root live t)
    (hlist : t.postorder = b ++ x :: a) (hfuel : live.length ≤ fuel) (hk : live.length < k) :
    ∃ l m' t', (eachLoop (rbNextPostorder fuel) (fun x => erase fuel x root) k (some x)).run m =
        .ok (x :: l, m') ∧
      (x :: l).Nodup ∧ (∀ y ∈ x :: l, y ∈ live) ∧ RedBlackTree m' root (live.diff (x :: l)) t' ∧
      (live.length ≤ 3 → b = [] → l.length + 1 = live.length ∧ m'.rbNode root = none) := by
  induction k generalizing m live t x b a with
  | zero => cases hk
  | succ k ih =>
    have hnext := run_rbNextPostorder h.rep.linked h.nodup hlist (fun _ _ => .refl ..)
      (h.perm.length_eq.trans_le hfuel)
    have hnd := (perm_postorder t).nodup_iff.mpr h.nodup
    have hmem : ∀ y, y ∈ t.postorder ↔ y ∈ live := fun y =>
      (perm_postorder t).mem_iff.trans h.perm.mem_iff
    have hx : x ∈ live := (hmem x).mp (by simp [hlist])
    have hlen := List.length_erase_add_one hx
    obtain ⟨N, hb⟩ := h.balanced
    have hperm := h.perm
    obtain ⟨ctx, c, l, r, rfl, hfirst⟩ := exists_place hb hlist
    obtain ⟨m₁, hbody, htree⟩ := erase_redBlackTree h hfuel
    have hgone : ∀ l : List α, (∀ y ∈ l, y ∈ live.erase x) → x ∉ l := fun l hl hxl =>
      ((hperm.nodup_iff.mp h.nodup).mem_erase_iff.mp (hl x hxl)).1 rfl
    cases a with
    | nil =>
      obtain ⟨k, rfl⟩ := Nat.exists_eq_add_one_of_ne_zero (n := k) (by omega)
      refine ⟨[], m₁, eraseNode ctx c l r, run_eachLoop_cons hnext hbody rfl, by simp,
        by simpa using hx, ?_, ?_⟩
      · rw [List.diff_cons, List.diff_nil]
        exact htree
      · intro hsmall hb'
        have hempty := hfirst (hperm.length_eq.trans_le hsmall) hb'
        rw [List.head?_nil, List.head?_eq_none_iff] at hempty
        have hzero := (perm_postorder _).length_eq.trans htree.perm.length_eq
        rw [hempty, List.length_nil] at hzero
        refine ⟨?_, htree.rbNode.trans (root_of_postorder_nil hempty)⟩
        rw [List.length_nil]
        omega
    | cons y a =>
      have hy : y ∈ (eraseNode ctx c l r).postorder := by
        rw [(perm_postorder _).mem_iff, htree.perm.mem_iff,
          (hperm.nodup_iff.mp h.nodup).mem_erase_iff]
        refine ⟨?_, (hmem y).mp (by simp [hlist])⟩
        rintro rfl
        rw [hlist, List.nodup_middle, List.nodup_cons] at hnd
        exact hnd.1 (List.mem_append_right _ (List.mem_cons_self ..))
      obtain ⟨b', a', hlist', hb'⟩ : ∃ b' a', (eraseNode ctx c l r).postorder = b' ++ y :: a' ∧
          (live.length ≤ 3 → b = [] → b' = []) := by
        by_cases hsmall : live.length ≤ 3 ∧ b = []
        · have hhead := hfirst (hperm.length_eq.trans_le hsmall.1) hsmall.2
          obtain ⟨a', ha'⟩ := List.head?_eq_some_iff.mp hhead
          exact ⟨[], a', ha', fun _ _ => rfl⟩
        · obtain ⟨b', a', hsplit⟩ := List.append_of_mem hy
          exact ⟨b', a', hsplit, fun hlen hb => absurd ⟨hlen, hb⟩ hsmall⟩
      obtain ⟨l', m', t', hrest, hnd', hsub, htree', hall⟩ := ih htree hlist' (by omega) (by omega)
      refine ⟨y :: l', m', t', run_eachLoop_cons hnext hbody hrest, ?_, ?_, ?_, ?_⟩
      · exact List.nodup_cons.mpr ⟨hgone _ hsub, hnd'⟩
      · intro z hz
        rcases List.mem_cons.mp hz with rfl | hz
        · exact hx
        · exact List.mem_of_mem_erase (hsub z hz)
      · rw [List.diff_cons]
        exact htree'
      · intro hsmall hb
        obtain ⟨hcount, hroot⟩ := hall (by omega) (hb' hsmall hb)
        refine ⟨?_, hroot⟩
        rw [List.length_cons]
        omega

/-- In every run from `RB_ROOT`, the loop in post-order that erases each node that it is at comes to
an end. It visits linked nodes, none of them twice, and leaves a red-black tree of those that it
missed. Of three nodes at most it misses none. -/
theorem postorder_erase_in_every_run {m : Memory α W ρ} {s : State α W ρ}
    (h₀ : m.rbNode root = none) (h : Reachable (step root) ⟨m, []⟩ s) (hfuel : s.live.length < fuel) :
    ∃ l m' t, (eachPostorder (fun x => erase fuel x root) fuel root).run s.memory = .ok (l, m') ∧
      l.Nodup ∧ (∀ x ∈ l, x ∈ s.live) ∧ RedBlackTree m' root (s.live.diff l) t ∧
      (s.live.length ≤ 3 → l.Perm s.live ∧ m'.rbNode root = none) := by
  obtain ⟨t, ht⟩ := reachable_redBlackTree h₀ h
  have hstart := run_rbFirstPostorder ht.rep.linked ht.rbNode (ht.perm.length_eq.trans_le hfuel.le)
  rw [eachPostorder, StateT.run_bind, hstart, pure_bind]
  cases hlist : t.postorder with
  | nil =>
    obtain ⟨k, rfl⟩ := Nat.exists_eq_add_one_of_ne_zero (Nat.ne_zero_of_lt hfuel)
    obtain rfl := root_eq_none.mp (root_of_postorder_nil hlist)
    have hempty : s.live = [] := List.nil_perm.mp ht.perm
    exact ⟨[], s.memory, .nil, rfl, .nil, by simp, ht, fun _ => ⟨by rw [hempty], ht.rbNode⟩⟩
  | cons x a =>
    obtain ⟨l, m', t', hrun, hnd, hsub, htree, hall⟩ := run_eachErase (b := []) ht hlist hfuel.le hfuel
    refine ⟨x :: l, m', t', hrun, hnd, hsub, htree, fun hsmall => ?_⟩
    obtain ⟨hlen, hroot⟩ := hall hsmall rfl
    exact ⟨(List.subperm_of_subset hnd hsub).perm_of_length_le hlen.ge, hroot⟩

end Loop
/-- The three elements of the test, which the loop erases all. -/
theorem three_erased_in_postorder :
    ∃ (s : State Address (BitVec 64) Unit) (l : List Address) (m' : Memory Address (BitVec 64) Unit),
      s.live.length = 3 ∧
      (eachPostorder (fun x => erase 4 x ()) 4 ()).run s.memory = .ok (l, m') ∧
      l.Perm s.live ∧ m'.rbNode () = none := by
  have hfuel : threeNodes.live.length < 4 := by decide
  obtain ⟨l, m', t, hrun, -, -, -, hall⟩ := postorder_erase_in_every_run rfl reachable_threeNodes hfuel
  obtain ⟨hperm, hroot⟩ := hall (by decide)
  exact ⟨_, l, m', rfl, hrun, hperm, hroot⟩

def fourNodes : State Nat (Option Nat × Color) Unit :=
  (run (step ()) ⟨⟨fun _ => (none, .red), fun _ => none, fun _ => none, fun _ => none⟩, []⟩
    [(.insert 1 none (.rbNode ()), 1), (.insert 2 (some 1) (.rbRight 1), 2),
      (.insert 3 (some 2) (.rbRight 2), 3), (.insert 4 (some 3) (.rbRight 3), 4)]).getD
    ⟨⟨fun _ => (none, .red), fun _ => none, fun _ => none, fun _ => none⟩, []⟩

-- the root is missed when the first erasure lifts another node above it
example : ((eachPostorder (fun x => erase 5 x ()) 5 ()).run fourNodes.memory).toOption.map Prod.fst =
    some [1, 4, 3] := by decide +kernel

end CommonProject.RBTree

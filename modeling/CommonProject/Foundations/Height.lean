import Mathlib.Algebra.Order.Ring.Nat
import Mathlib.Data.Nat.Log
import CommonProject.Foundations.Balance

/-! How long the paths of a balanced tree are. -/
namespace CommonProject.Foundations.RedBlack
open ColorTree
variable {α : Type}

inductive Path : ColorTree α → List (Color × α) → Prop
  | nil : Path .nil []
  | left {c : Color} {l r : ColorTree α} {x : α} {p : List (Color × α)} :
      Path l p → Path (.node c l x r) ((c, x) :: p)
  | right {c : Color} {l r : ColorTree α} {x : α} {p : List (Color × α)} :
      Path r p → Path (.node c l x r) ((c, x) :: p)

def ColorTree.height : ColorTree α → Nat
  | .nil => 0
  | .node _ l _ r => max l.height r.height + 1

variable {t : ColorTree α} {c : Color} {n N : Nat} {p : List (Color × α)}

theorem exists_path_height (t : ColorTree α) : ∃ p, Path t p ∧ p.length = t.height := by
  induction t with
  | nil => exact ⟨[], .nil, rfl⟩
  | node c l x r ihl ihr =>
    obtain ⟨p, hp, hlen⟩ := ihl
    obtain ⟨q, hq, hlen'⟩ := ihr
    rcases Nat.le_total r.height l.height with h | h
    · exact ⟨_, .left hp, by rw [List.length_cons, hlen, height, Nat.max_eq_left h]⟩
    · exact ⟨_, .right hq, by rw [List.length_cons, hlen', height, Nat.max_eq_right h]⟩

/-- The nodes of a tree are those of its paths. -/
theorem mem_toList_iff_path {x : α} : x ∈ t.toList ↔ ∃ p, Path t p ∧ x ∈ p.map Prod.snd := by
  induction t with
  | nil =>
    refine ⟨fun h => absurd h List.not_mem_nil, ?_⟩
    rintro ⟨p, hp, h⟩
    cases hp
    exact h
  | node c l y r ihl ihr =>
    simp only [toList, List.mem_append, List.mem_cons, ihl, ihr]
    constructor
    · rintro (⟨p, hp, hx⟩ | rfl | ⟨p, hp, hx⟩)
      · exact ⟨_, .left hp, List.mem_cons_of_mem _ hx⟩
      · obtain ⟨p, hp, -⟩ := exists_path_height l
        exact ⟨_, .left hp, List.mem_cons_self⟩
      · exact ⟨_, .right hp, List.mem_cons_of_mem _ hx⟩
    · rintro ⟨p, hp, hx⟩
      cases hp with
      | left hp => exact (List.mem_cons.mp hx).elim (.inr <| .inl ·) (.inl ⟨_, hp, ·⟩)
      | right hp => exact (List.mem_cons.mp hx).elim (.inr <| .inl ·) (.inr <| .inr ⟨_, hp, ·⟩)

theorem Path.length_le (h : Path t p) : p.length ≤ t.height := by
  induction h with
  | nil => exact Nat.le_refl _
  | left _ ih => exact Nat.succ_le_succ (Nat.le_trans ih (Nat.le_max_left ..))
  | right _ ih => exact Nat.succ_le_succ (Nat.le_trans ih (Nat.le_max_right ..))

/-- Every path passes the same number of black nodes. -/
theorem Balanced.count_black (h : Balanced t c n) (hp : Path t p) :
    p.countP (fun q => q.1 = .black) = n := by
  induction h generalizing p with
  | nil =>
    cases hp
    rfl
  | red _ _ ihl ihr =>
    cases hp with
    | left hp => simpa using ihl hp
    | right hp => simpa using ihr hp
  | black _ _ ihl ihr =>
    cases hp with
    | left hp => simpa using ihl hp
    | right hp => simpa using ihr hp

/-- Each red node is followed by a black one. -/
theorem Balanced.height_le (h : Balanced t c n) :
    t.height ≤ 2 * n + if c = .red then 1 else 0 := by
  induction h with
  | nil => exact Nat.le_refl _
  | red _ _ ihl ihr =>
    simp only [reduceCtorEq, if_false, Nat.add_zero] at ihl ihr
    exact Nat.succ_le_succ (Nat.max_le.mpr ⟨ihl, ihr⟩)
  | @black l r _ c c' n _ _ ihl ihr =>
    have hone : ∀ c : Color, (if c = .red then 1 else 0) ≤ 1 := fun c => by split <;> decide
    have hl := ihl.trans (Nat.add_le_add_left (hone c) _)
    have hr := ihr.trans (Nat.add_le_add_left (hone c') _)
    rw [height]
    simp only [reduceCtorEq, if_false]
    omega

/-- The black nodes alone make a full tree. -/
theorem Balanced.two_pow_le (h : Balanced t c n) : 2 ^ n ≤ t.toList.length + 1 := by
  induction h with
  | nil => exact Nat.le_refl _
  | red _ _ ihl ihr =>
    rw [toList, List.length_append, List.length_cons]
    omega
  | black _ _ ihl ihr =>
    rw [toList, List.length_append, List.length_cons, Nat.pow_succ]
    omega

/-- A balanced tree is at most twice as high as a full one. -/
theorem Balanced.two_pow_height_le (h : Balanced t .black n) :
    2 ^ t.height ≤ (t.toList.length + 1) ^ 2 :=
  calc
    2 ^ t.height ≤ 2 ^ (2 * n) := Nat.pow_le_pow_right (by decide) (by simpa using h.height_le)
    _ = (2 ^ n) ^ 2 := by rw [Nat.mul_comm, Nat.pow_mul]
    _ ≤ (t.toList.length + 1) ^ 2 := Nat.pow_le_pow_left h.two_pow_le 2

/-- So the height is logarithmic. -/
theorem Balanced.height_le_log (h : Balanced t .black n) :
    t.height ≤ 2 * Nat.log 2 (t.toList.length + 1) := by
  have hblack := Nat.le_log_of_pow_le Nat.one_lt_two h.two_pow_le
  have hheight : t.height ≤ 2 * n := by simpa using h.height_le
  omega

section Places
variable {d : Dir} {x : α} {near far l r : ColorTree α} {ctx : List (Frame α)}

theorem height_branch : (branch d c x near far).height = max near.height far.height + 1 := by
  cases d
  · rfl
  · exact congrArg (· + 1) (Nat.max_comm ..)

/-- A place is above all that hangs below it. -/
theorem length_add_height_le (ctx : List (Frame α)) (t : ColorTree α) :
    ctx.length + t.height ≤ (plug ctx t).height := by
  induction ctx generalizing t with
  | nil => exact (Nat.zero_add _).le
  | cons f ctx ih =>
    have hfill : t.height + 1 ≤ (f.fill t).height := by
      rw [Frame.fill, height_branch]
      exact Nat.succ_le_succ (Nat.le_max_left ..)
    have hctx := ih (f.fill t)
    rw [plug, List.length_cons]
    omega

theorem length_le_height_plug (h : plug ctx .nil = t) : ctx.length ≤ t.height := by
  rw [← h]
  exact length_add_height_le ctx .nil

/-- The hole that an erasure leaves is in the tree. -/
theorem length_splice_lt (ctx : List (Frame α)) (c : Color) (l : ColorTree α) (x : α)
    (r : ColorTree α) : (splice ctx c l r).1.length < (plug ctx (node c l x r)).height := by
  have hctx := length_add_height_le ctx (node c l x r)
  rw [height] at hctx
  have hlt : ctx.length < (plug ctx (node c l x r)).height := by omega
  fun_cases splice ctx c l r with
  | case1 => exact hlt
  | case2 => exact hlt
  | case3 => exact hlt
  | case4 l cr rl y rr hl path cs s child hfirst =>
    have hpath := length_add_height_le path (node cs .nil s child)
    rw [plug_firstOf hfirst, plug] at hpath
    have hmax := Nat.le_max_right l.height (node cr rl y rr).height
    simp only [List.length_append, List.length_cons]
    rw [height] at hpath
    omega

end Places

end CommonProject.Foundations.RedBlack

import CommonProject.Foundations.Height
import CommonProject.RBTree.Runs

/-! The way down from the root to any empty link is short. -/
namespace CommonProject.RBTree
open Foundations Foundations.RedBlack Foundations.RedBlack.ColorTree
variable {α W ρ : Type}

/-- The nodes passed on a way down along the links to NULL. -/
inductive Descent (m : Memory α W ρ) : Option α → List α → Prop
  | null : Descent m none []
  | step (d : Dir) {x : α} {path : List α} : Descent m (m.child d x) path →
      Descent m (some x) (x :: path)

variable [Word α W]

def isBlackIn (m : Memory α W ρ) (x : α) : Bool := Word.color α (m.rbParentColor x) = .black

section Descents
variable {m : Memory α W ρ} {p : Option α} {t : ColorTree α} {path : List α}

private theorem Rep.descent {q : List (Color × α)} (h : Rep m p t) (hq : Path t q) :
    Descent m t.root (q.map Prod.snd) := by
  induction hq generalizing p with
  | nil => exact .null
  | left _ ih =>
    obtain ⟨-, hl, -, hrl, -⟩ := h
    refine .step .left ?_
    rw [Memory.child, hl]
    exact ih hrl
  | right _ ih =>
    obtain ⟨-, -, hr, -, hrr⟩ := h
    refine .step .right ?_
    rw [Memory.child, hr]
    exact ih hrr

/-- The ways down in memory are the paths of the tree. -/
private theorem Rep.exists_path (h : Rep m p t) (hd : Descent m t.root path) :
    ∃ q, Path t q ∧ path = q.map Prod.snd ∧ ∀ n ∈ q, isBlackIn m n.2 = decide (n.1 = .black) := by
  induction t generalizing p path with
  | nil =>
    cases hd
    exact ⟨[], .nil, rfl, by simp⟩
  | node c l x r ihl ihr =>
    obtain ⟨hw, hl, hr, hrl, hrr⟩ := h
    have hx : isBlackIn m x = decide (c = .black) := by rw [isBlackIn, hw, Word.color_pack]
    cases hd with
    | step d hd =>
      cases d with
      | left =>
        rw [Memory.child, hl] at hd
        obtain ⟨q, hq, rfl, hcol⟩ := ihl hrl hd
        exact ⟨_, .left hq, rfl, List.forall_mem_cons.mpr ⟨hx, hcol⟩⟩
      | right =>
        rw [Memory.child, hr] at hd
        obtain ⟨q, hq, rfl, hcol⟩ := ihr hrr hd
        exact ⟨_, .right hq, rfl, List.forall_mem_cons.mpr ⟨hx, hcol⟩⟩

private theorem Rep.descent_count {n : Nat} {c : Color} (h : Rep m p t) (hb : Balanced t c n)
    (hd : Descent m t.root path) : path.countP (isBlackIn m) = n := by
  obtain ⟨q, hq, rfl, hcol⟩ := h.exists_path hd
  rw [List.countP_map, ← hb.count_black hq]
  exact List.countP_congr fun n hn => by rw [Function.comp_apply, hcol n hn]

end Descents

section Runs
variable [DecidableEq α] [DecidableEq ρ] {root : ρ} {s : State α W ρ}

/-- In every run from `RB_ROOT`, all ways down pass the same number of black nodes, and the longest
one is at most twice as long and logarithmic in the number of the nodes that are linked. -/
theorem logarithmic_height {m : Memory α W ρ} (h₀ : m.rbNode root = none)
    (h : Reachable (step root) ⟨m, []⟩ s) :
    ∃ height B, ((∃ path, Descent s.memory (s.memory.rbNode root) path ∧ path.length = height) ∧
        ∀ path, Descent s.memory (s.memory.rbNode root) path → path.length ≤ height) ∧
      (∀ path, Descent s.memory (s.memory.rbNode root) path →
        path.countP (isBlackIn s.memory) = B) ∧
      height ≤ 2 * B ∧ 2 ^ B ≤ s.live.length + 1 ∧ 2 ^ height ≤ (s.live.length + 1) ^ 2 ∧
      s.live.Nodup ∧ ∀ x, x ∈ s.live ↔
        ∃ path, Descent s.memory (s.memory.rbNode root) path ∧ x ∈ path := by
  obtain ⟨t, ht⟩ := reachable_redBlackTree h₀ h
  obtain ⟨B, hb⟩ := ht.balanced
  rw [ht.rbNode, ← ht.perm.length_eq]
  refine ⟨t.height, B, ⟨?_, fun path hpath => ?_⟩, fun path hpath => ht.rep.descent_count hb hpath,
    ?_, hb.two_pow_le, hb.two_pow_height_le, ht.perm.nodup_iff.mp ht.nodup, fun x => ?_⟩
  · obtain ⟨q, hq, hlen⟩ := exists_path_height t
    exact ⟨_, ht.rep.descent hq, (List.length_map ..).trans hlen⟩
  · obtain ⟨q, hq, rfl, -⟩ := ht.rep.exists_path hpath
    rw [List.length_map]
    exact hq.length_le
  · simpa using hb.height_le
  · rw [← ht.perm.mem_iff, mem_toList_iff_path]
    constructor
    · rintro ⟨q, hq, hx⟩
      exact ⟨_, ht.rep.descent hq, hx⟩
    · rintro ⟨path, hpath, hx⟩
      obtain ⟨q, hq, rfl, -⟩ := ht.rep.exists_path hpath
      exact ⟨q, hq, hx⟩

/-- Three nodes inserted in ascending order are two levels high. -/
theorem height_of_three :
    threeNodes.live.length = 3 ∧
    (∃ path, Descent threeNodes.memory (threeNodes.memory.rbNode ()) path ∧ path.length = 2) ∧
    ∃ height B, (∀ path, Descent threeNodes.memory (threeNodes.memory.rbNode ()) path →
      path.length ≤ height) ∧ 2 ≤ height ∧ height ≤ 2 * B ∧ 2 ^ B ≤ 4 := by
  have hpath : Descent threeNodes.memory (threeNodes.memory.rbNode ())
      [⟨48#64, by decide⟩, ⟨8#64, by decide⟩] := .step .left (.step .left .null)
  obtain ⟨height, B, ⟨-, hmax⟩, -, hle, hpow, -⟩ := logarithmic_height rfl reachable_threeNodes
  exact ⟨rfl, ⟨_, hpath, rfl⟩, height, B, hmax, hmax _ hpath, hle, hpow⟩

end Runs
end CommonProject.RBTree

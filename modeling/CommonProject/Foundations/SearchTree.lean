import Mathlib.Order.Lattice
import Mathlib.Data.List.Nodup
import CommonProject.Foundations.RedBlack

/-! Looking for a key in a tree whose nodes are in the order of their keys, where equal keys may
be on either side of each other. -/
namespace CommonProject.Foundations.RedBlack
open ColorTree
variable {α κ : Type} [LinearOrder κ]

/-- The place for a new node after all nodes with keys up to `k`. -/
def place (key : α → κ) (k : κ) : ColorTree α → List (Frame α) → List (Frame α)
  | .nil, ctx => ctx
  | .node c l x r, ctx =>
    if k < key x then place key k l (⟨.left, c, x, r⟩ :: ctx)
    else place key k r (⟨.right, c, x, l⟩ :: ctx)

def search (key : α → κ) (k : κ) : ColorTree α → Option α
  | .nil => none
  | .node _ l x r =>
    if k = key x then some x
    else if k < key x then search key k l
    else search key k r

/-- The members in the order of their keys, and those of one key in the given order. -/
structure StableSort (key : α → κ) (l live : List α) : Prop where
  perm : l.Perm live
  sorted : l.Pairwise fun a b => key a ≤ key b
  stable : ∀ k, (l.filter fun a => key a = k) = live.filter fun a => key a = k

section Search
variable {key : α → κ} {k : κ} {t : ColorTree α} {ctx : List (Frame α)} {x : α}

theorem plug_place (key : α → κ) (k : κ) (t : ColorTree α) (ctx : List (Frame α)) :
    plug (place key k t ctx) .nil = plug ctx t := by
  induction t generalizing ctx with
  | nil => rfl
  | node c l x r ihl ihr =>
    rw [place]
    split
    · exact ihl _
    · exact ihr _

theorem length_place (key : α → κ) (k : κ) (t : ColorTree α) (ctx : List (Frame α)) :
    ctx.length ≤ (place key k t ctx).length := by
  induction t generalizing ctx with
  | nil => exact Nat.le_refl _
  | node c l x r ihl ihr =>
    rw [place]
    split
    · exact Nat.le_of_succ_le (ihl (⟨.left, c, x, r⟩ :: ctx))
    · exact Nat.le_of_succ_le (ihr (⟨.right, c, x, l⟩ :: ctx))

private theorem sorted_node {c : Color} {l r : ColorTree α}
    (h : (node c l x r).toList.Pairwise fun a b => key a ≤ key b) :
    (l.toList.Pairwise fun a b => key a ≤ key b) ∧ (∀ y ∈ l.toList, key y ≤ key x) ∧
      (∀ y ∈ r.toList, key x ≤ key y) ∧ r.toList.Pairwise fun a b => key a ≤ key b := by
  simp only [toList, List.pairwise_append, List.pairwise_cons, List.mem_cons] at h
  exact ⟨h.1, fun y hy => h.2.2 y hy x (.inl rfl), h.2.1.1, h.2.1.2⟩

/-- The descent ends between the keys up to `k` and the larger ones. -/
theorem place_spec (k : κ) (ctx : List (Frame α))
    (h : t.toList.Pairwise fun a b => key a ≤ key b)
    (hb : ∀ y ∈ before ctx, key y ≤ k) (ha : ∀ y ∈ after ctx, k < key y) :
    (∀ y ∈ before (place key k t ctx), key y ≤ k) ∧
      ∀ y ∈ after (place key k t ctx), k < key y := by
  induction t generalizing ctx with
  | nil => exact ⟨hb, ha⟩
  | node c l x r ihl ihr =>
    obtain ⟨hl, hlx, hxr, hr⟩ := sorted_node h
    rw [place]
    split
    case isTrue hk =>
      apply ihl _ hl
      · simpa [before] using hb
      · intro y hy
        simp only [after, List.cons_append, List.mem_cons, List.mem_append] at hy
        rcases hy with rfl | hy | hy
        · exact hk
        · exact hk.trans_le (hxr y hy)
        · exact ha y hy
    case isFalse hk =>
      apply ihr _ hr
      · intro y hy
        simp only [before, List.mem_append, List.mem_singleton] at hy
        rcases hy with hy | hy | rfl
        · exact hb y hy
        · exact (hlx y hy).trans (not_lt.mp hk)
        · exact not_lt.mp hk
      · simpa [after] using ha

theorem search_eq_some (h : search key k t = some x) : x ∈ t.toList ∧ key x = k := by
  induction t with
  | nil => cases h
  | node c l y r ihl ihr =>
    simp only [search] at h
    simp only [toList, List.mem_append, List.mem_cons]
    split at h
    · cases h
      exact ⟨.inr (.inl rfl), Eq.symm ‹_›⟩
    · split at h
      · exact ⟨.inl (ihl h).1, (ihl h).2⟩
      · exact ⟨.inr (.inr (ihr h).1), (ihr h).2⟩

/-- Nothing is missed, as the whole sequence is sorted. -/
theorem search_eq_none (hs : t.toList.Pairwise fun a b => key a ≤ key b)
    (h : search key k t = none) (hx : x ∈ t.toList) : key x ≠ k := by
  induction t with
  | nil => cases hx
  | node c l y r ihl ihr =>
    obtain ⟨hl, hly, hyr, hr⟩ := sorted_node hs
    simp only [search] at h
    simp only [toList, List.mem_append, List.mem_cons] at hx
    split at h
    · cases h
    case isFalse hne =>
      split at h
      case isTrue hk =>
        rcases hx with hx | rfl | hx
        · exact ihl hl h hx
        · exact hk.ne'
        · exact (hk.trans_le (hyr x hx)).ne'
      case isFalse hk =>
        have hk' : key y < k := lt_of_le_of_ne (not_lt.mp hk) (Ne.symm hne)
        rcases hx with hx | rfl | hx
        · exact ((hly x hx).trans_lt hk').ne
        · exact hk'.ne
        · exact ihr hr h hx

end Search

section Sorting
variable {key key' : α → κ} {l live b a : List α} {x : α}

theorem StableSort.congr (h : StableSort key l live) (hk : ∀ y ∈ live, key' y = key y) :
    StableSort key' l live := by
  have hl : ∀ y ∈ l, key' y = key y := fun y hy => hk y (h.perm.mem_iff.mp hy)
  refine ⟨h.perm, h.sorted.imp_of_mem fun hy hz hle => ?_, fun k => ?_⟩
  · rwa [hl _ hy, hl _ hz]
  · rw [List.filter_congr fun y hy => by rw [hl y hy], h.stable k]
    exact List.filter_congr fun y hy => by rw [hk y hy]

/-- A new node after the keys up to its own. -/
theorem StableSort.insert (h : StableSort key (b ++ a) live) (hb : ∀ y ∈ b, key y ≤ key x)
    (ha : ∀ y ∈ a, key x < key y) : StableSort key (b ++ x :: a) (live ++ [x]) := by
  refine ⟨?_, ?_, fun k => ?_⟩
  · exact List.perm_middle.trans ((h.perm.cons x).trans (List.perm_append_singleton x live).symm)
  · have hs := h.sorted
    rw [List.pairwise_append] at hs ⊢
    refine ⟨hs.1, List.pairwise_cons.mpr ⟨fun y hy => (ha y hy).le, hs.2.1⟩, ?_⟩
    intro y hy z hz
    rcases List.mem_cons.mp hz with rfl | hz
    · exact hb y hy
    · exact hs.2.2 y hy z hz
  · have hf := h.stable k
    rw [List.filter_append] at hf
    rw [List.filter_append, List.filter_append, ← hf, List.append_assoc]
    congr 1
    by_cases hk : key x = k
    · have hnil : (a.filter fun y => key y = k) = [] := by
        rw [List.filter_eq_nil_iff]
        intro y hy
        simpa using (hk ▸ ha y hy).ne'
      simp [hk, hnil]
    · simp [hk]

theorem StableSort.erase [DecidableEq α] (h : StableSort key l live) (hnd : l.Nodup) (x : α) :
    StableSort key (l.erase x) (live.erase x) := by
  refine ⟨h.perm.erase x, h.sorted.sublist (List.erase_sublist ..), fun k => ?_⟩
  rw [hnd.erase_eq_filter, (h.perm.nodup_iff.mp hnd).erase_eq_filter, List.filter_comm, h.stable k,
    List.filter_comm]

end Sorting
end CommonProject.Foundations.RedBlack

import CommonProject.Foundations.ImplicitHeap
import Mathlib.Algebra.BigOperators.Intervals
import Mathlib.Algebra.Order.BigOperators.Group.Finset
import Mathlib.Data.Nat.Log

/-! Levels of the implicit binary tree over the indices below `n`: how far it is from a slot up to
the root and down to the end, and how much all ways down are together. -/
namespace CommonProject.Foundations.ImplicitHeap

def depth (i : Nat) : Nat := Nat.log 2 (i + 1)

/-- The levels below slot `i` of a heap of `n`. -/
def levels (n i : Nat) : Nat := Nat.log 2 (n / (i + 1))

theorem depth_parent {i : Nat} (h : 0 < i) : depth i = depth (parent i) + 1 := by
  have hhalf : parent i + 1 = (i + 1) / 2 := by
    unfold parent
    omega
  rw [depth, depth, hhalf]
  exact Nat.log_of_one_lt_of_le Nat.one_lt_two (by omega)

theorem levels_root (n : Nat) : levels n 0 = Nat.log 2 n := by
  rw [levels, Nat.zero_add, Nat.div_one]

/-- The first half of the slots has one level more than it would have in a heap of half the size. -/
theorem levels_half (n i : Nat) :
    levels n i = levels (n / 2) i + if i < n / 2 then 1 else 0 := by
  have hhalf : n / 2 / (i + 1) = n / (i + 1) / 2 := Nat.div_right_comm n 2 (i + 1)
  rw [levels, levels, hhalf]
  split
  · have hle : 2 * (i + 1) ≤ n := by omega
    have htwo : 2 ≤ n / (i + 1) := (Nat.le_div_iff_mul_le i.succ_pos).mpr hle
    exact Nat.log_of_one_lt_of_le Nat.one_lt_two htwo
  · have hlt : n < 2 * (i + 1) := by omega
    have htwo : n / (i + 1) < 2 := (Nat.div_lt_iff_lt_mul i.succ_pos).mpr hlt
    rw [Nat.log_of_lt htwo, Nat.log_of_lt (by omega)]

theorem levels_pos {n i : Nat} (h : i * 2 + 1 < n) : 0 < levels n i := by
  rw [levels_half, if_pos (by omega)]
  omega

theorem levels_child {n c : Nat} (h : 0 < c) (hn : c < n) : levels n c + 1 ≤ levels n (parent c) := by
  have hp : parent c < n / 2 := by
    unfold parent
    omega
  have hdiv : n / (c + 1) ≤ n / 2 / (parent c + 1) := by
    rw [Nat.div_div_eq_div_mul]
    refine Nat.div_le_div_left ?_ (Nat.mul_pos Nat.two_pos (Nat.succ_pos _))
    unfold parent
    omega
  rw [levels_half n (parent c), if_pos hp]
  exact Nat.add_le_add_right (Nat.log_mono_right hdiv) 1

/-- All ways down together are shorter than the heap is large. -/
theorem sum_levels_le (n m : Nat) : ∑ i ∈ Finset.range m, levels n i ≤ n - 1 := by
  induction n using Nat.strongRecOn with
  | ind n ih =>
    have hsplit : ∑ i ∈ Finset.range m, levels n i =
        ∑ i ∈ Finset.range m, levels (n / 2) i + ∑ i ∈ Finset.range m, if i < n / 2 then 1 else 0 := by
      rw [← Finset.sum_add_distrib]
      exact Finset.sum_congr rfl fun i _ => levels_half n i
    have hcount : (∑ i ∈ Finset.range m, if i < n / 2 then 1 else 0) ≤ n / 2 := by
      rw [← Finset.sum_filter, ← Finset.card_eq_sum_ones]
      calc ((Finset.range m).filter (· < n / 2)).card
          ≤ (Finset.range (n / 2)).card := Finset.card_le_card fun i hi => by
            rw [Finset.mem_filter] at hi
            exact Finset.mem_range.mpr hi.2
        _ = n / 2 := Finset.card_range _
    rw [hsplit]
    rcases Nat.eq_zero_or_pos (n / 2) with hz | hpos
    · have hzero : ∀ i ∈ Finset.range m, levels (n / 2) i = 0 := fun i _ => by
        rw [hz, levels, Nat.zero_div, Nat.log_zero_right]
      rw [Finset.sum_eq_zero hzero]
      omega
    · have hrest := ih (n / 2) (by omega)
      omega

end CommonProject.Foundations.ImplicitHeap

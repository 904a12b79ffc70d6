import Mathlib.Data.Multiset.Range
import Mathlib.Data.Multiset.MapFold
import Mathlib.Logic.Equiv.Basic

/-! Heap order in the implicit binary tree over the indices below `n`, and the two
ways in which an exchange moves its only violation. -/
namespace CommonProject.Foundations

/-- A strict weak order, given by its test. Ties form equivalence classes. -/
structure StrictWeakOrder (α : Type) where
  less : α → α → Bool
  irrefl : ∀ a, less a a = false
  trans : ∀ {a b c}, less a b = true → less b c = true → less a c = true
  tie_trans : ∀ {a b c}, less a b = false → less b a = false → less b c = false →
    less c b = false → less a c = false

namespace StrictWeakOrder
variable {α : Type} (ord : StrictWeakOrder α)

theorem asymm {a b : α} (h : ord.less a b = true) : ord.less b a = false := by
  by_contra hb
  rw [Bool.not_eq_false] at hb
  simpa [ord.irrefl] using ord.trans h hb

/-- "Not less" composes: it is the weak order read backwards. -/
theorem not_less_trans {a b c : α} (hb : ord.less b a = false) (hc : ord.less c b = false) :
    ord.less c a = false := by
  by_contra hca
  rw [Bool.not_eq_false] at hca
  cases hab : ord.less a b with
  | true => simpa [hc] using ord.trans hca hab
  | false =>
    cases hbc : ord.less b c with
    | true => simpa [hb] using ord.trans hbc hca
    | false => simpa [hca] using ord.tie_trans hc hbc hb hab

def Total : Prop := ∀ a b, ord.less a b = false → ord.less b a = false → a = b

def Ascending (l : List α) : Prop := l.Pairwise fun a b => ord.less b a = false

variable {ord}

/-- A total order leaves no choice of how to sort. -/
theorem Ascending.eq_of_perm {l l' : List α} (ht : ord.Total) (h : ord.Ascending l)
    (h' : ord.Ascending l') (hp : l.Perm l') : l = l' := by
  refine List.Perm.eq_of_pairwise (fun a b _ _ hab hba => ?_) h h' hp
  exact ht a b hba hab

end StrictWeakOrder

namespace ImplicitHeap

/-- The parent slot; slot 0 is nobody's child. -/
def parent (i : Nat) : Nat := (i - 1) / 2

theorem parent_lt {i : Nat} (h : 0 < i) : parent i < i := by
  unfold parent
  omega

theorem parent_eq_iff {i p : Nat} (h : 0 < i) : parent i = p ↔ i = p * 2 + 1 ∨ i = p * 2 + 2 := by
  unfold parent
  omega

/-- The slots of the subtree at `p`. -/
inductive Below (p : Nat) : Nat → Prop
  | refl : Below p p
  | child {i : Nat} : 0 < i → Below p (parent i) → Below p i

theorem Below.le {p i : Nat} (h : Below p i) : p ≤ i := by
  induction h with
  | refl => exact Nat.le_refl p
  | child hi _ ih => exact ih.trans (parent_lt hi).le

theorem Below.trans {p q i : Nat} (hq : Below p q) (hi : Below q i) : Below p i := by
  induction hi with
  | refl => exact hq
  | child h _ ih => exact .child h ih

theorem below_zero (i : Nat) : Below 0 i := by
  induction i using Nat.strongRecOn with
  | ind i ih =>
    rcases Nat.eq_zero_or_pos i with rfl | hi
    · exact .refl
    · exact .child hi (ih _ (parent_lt hi))

/-- The slots above a slot are above each other. -/
theorem Below.comparable {p q i : Nat} (hp : Below p i) (hq : Below q i) : Below p q ∨ Below q p := by
  induction hp with
  | refl => exact .inr hq
  | child hi hp ih =>
    cases hq with
    | refl => exact .inl (.child hi hp)
    | child _ hq => exact ih hq

/-- The way down to a slot starts at one child only. -/
theorem Below.child_unique {c k i : Nat} (hc : Below c i) (hk : Below k i) (hc0 : 0 < c) (hk0 : 0 < k)
    (hp : parent c = parent k) : c = k := by
  have hone : ∀ {c k : Nat}, 0 < c → parent c = parent k → Below c k → c = k := by
    intro c k hc0 hp hb
    cases hb with
    | refl => rfl
    | child _ hb =>
      have hle := hb.le
      have hlt := parent_lt hc0
      omega
  rcases hc.comparable hk with hb | hb
  · exact hone hc0 hp hb
  · exact (hone hk0 hp.symm hb).symm

theorem Below.exists_child {p i : Nat} (h : Below p i) (hne : i ≠ p) :
    ∃ c, 0 < c ∧ parent c = p ∧ Below c i := by
  induction h with
  | refl => exact absurd rfl hne
  | @child i hi hb ih =>
    by_cases hp : parent i = p
    · exact ⟨i, hi, hp, .refl⟩
    · obtain ⟨c, hc, hcp, hcb⟩ := ih hp
      exact ⟨c, hc, hcp, .child hi hcb⟩

section Order
variable {α : Type} (ord : StrictWeakOrder α)

/-- No element below `n` is less than its parent, for the parents from `k` on. -/
def OrderedFrom (d : Nat → α) (n k : Nat) : Prop :=
  ∀ i, 0 < i → i < n → k ≤ parent i → ord.less (d i) (d (parent i)) = false

/-- Heap order from `k` on, but for the children of `p`, which are nevertheless not
less than the parent of `p`. -/
structure SinkingAt (d : Nat → α) (n k p : Nat) : Prop where
  except : ∀ i, 0 < i → i < n → k ≤ parent i → parent i ≠ p →
    ord.less (d i) (d (parent i)) = false
  grand : ∀ c, 0 < c → c < n → parent c = p → 0 < p → k ≤ parent p →
    ord.less (d c) (d (parent p)) = false

def OrderedOn (d : Nat → α) (n : Nat) (S : Nat → Prop) : Prop :=
  ∀ i, 0 < i → i < n → S (parent i) → ord.less (d i) (d (parent i)) = false

/-- Heap order for the parents in `S`, but for the children of `p`, which are nevertheless not
less than the parent of `p`. -/
structure SinkingOn (d : Nat → α) (n : Nat) (S : Nat → Prop) (p : Nat) : Prop where
  except : ∀ i, 0 < i → i < n → S (parent i) → parent i ≠ p →
    ord.less (d i) (d (parent i)) = false
  grand : ∀ c, 0 < c → c < n → parent c = p → 0 < p → S (parent p) →
    ord.less (d c) (d (parent p)) = false

/-- Heap order but for `p` and its parent; the children of `p` are nevertheless not
less than that parent. -/
structure RisingAt (d : Nat → α) (n p : Nat) : Prop where
  except : ∀ i, 0 < i → i < n → i ≠ p → ord.less (d i) (d (parent i)) = false
  grand : ∀ c, 0 < c → c < n → parent c = p → 0 < p → ord.less (d c) (d (parent p)) = false

variable {ord} {d : Nat → α} {n k p : Nat} {S : Nat → Prop}

/-- The root of a subtree in heap order is a least element of it. -/
theorem OrderedOn.root_least {r : Nat} (h : OrderedOn ord d n (Below r)) {i : Nat} (hb : Below r i)
    (hi : i < n) : ord.less (d i) (d r) = false := by
  induction hb with
  | refl => exact ord.irrefl _
  | child hpos hb ih =>
    exact ord.not_less_trans (ih ((parent_lt hpos).trans hi)) (h _ hpos hi hb)

/-- The root of a heap is a least element. -/
theorem OrderedFrom.root_least (h : OrderedFrom ord d n 0) :
    ∀ i, i < n → ord.less (d i) (d 0) = false := by
  have hall : OrderedOn ord d n (Below 0) := fun i hi hin _ => h i hi hin (Nat.zero_le _)
  exact fun i hi => hall.root_least (below_zero i) hi

theorem OrderedFrom.sinking (h : OrderedFrom ord d n (k + 1)) : SinkingAt ord d n k k where
  except i hi hn hk hne := h i hi hn (by omega)
  grand c _ _ _ hp hk := by
    have := parent_lt hp
    omega

theorem OrderedFrom.of_le {l : Nat} (h : OrderedFrom ord d n k) (hl : k ≤ l) :
    OrderedFrom ord d n l := fun i hi hn hk => h i hi hn (hl.trans hk)

/-- Nothing is asked of the parents whose children are all past the end. -/
theorem orderedFrom_half (ord : StrictWeakOrder α) (d : Nat → α) (n : Nat) :
    OrderedFrom ord d n (n / 2) := by
  intro i hi hn hk
  unfold parent at hk
  omega

/-- Exchanging the moving element with the least child moves the violation there. -/
theorem SinkingOn.exchange {s : Nat} (h : SinkingOn ord d n S p) (hS : S s) (hs : 0 < s)
    (hn : s < n) (hp : parent s = p) (hl : ord.less (d s) (d p) = true)
    (hm : ∀ c, 0 < c → c < n → parent c = p → ord.less (d c) (d s) = false) :
    SinkingOn ord (d ∘ Equiv.swap s p) n S s := by
  have hps : p < s := hp ▸ parent_lt hs
  have hat : (d ∘ Equiv.swap s p) s = d p := by simp
  have hat' : (d ∘ Equiv.swap s p) p = d s := by simp
  have hoff : ∀ i, i ≠ s → i ≠ p → (d ∘ Equiv.swap s p) i = d i := fun i h1 h2 => by
    simp [Equiv.swap_apply_of_ne_of_ne h1 h2]
  constructor
  · intro i hi hin hki hpi
    have hlt := parent_lt hi
    by_cases h1 : i = s
    · subst h1
      rw [hat, hp, hat']
      exact ord.asymm hl
    by_cases h2 : i = p
    · subst h2
      rw [hat', hoff _ hpi hlt.ne]
      exact h.grand s hs hn hp hi hki
    rw [hoff i h1 h2]
    by_cases h3 : parent i = p
    · rw [h3, hat']
      exact hm i hi hin h3
    · rw [hoff _ hpi h3]
      exact h.except i hi hin hki h3
  · intro c hc hcn hcs _ _
    have hlt := parent_lt hc
    rw [hp, hat', hoff c (by omega) (by omega)]
    have he := h.except c hc hcn (hcs ▸ hS) (by omega)
    rwa [hcs] at he

/-- When no child is less than the moving element the order is restored. -/
theorem SinkingOn.ordered (h : SinkingOn ord d n S p)
    (hm : ∀ c, 0 < c → c < n → parent c = p → ord.less (d c) (d p) = false) :
    OrderedOn ord d n S := by
  intro i hi hin hki
  by_cases hp : parent i = p
  · rw [hp]; exact hm i hi hin hp
  · exact h.except i hi hin hki hp

theorem OrderedFrom.rising (h : OrderedFrom ord d n 0) : RisingAt ord d (n + 1) n where
  except i hi hin hne := h i hi (by omega) (Nat.zero_le _)
  grand c hc hcn hp _ := by
    have := parent_lt hc
    omega

/-- Exchanging the moving element with a parent it does not exceed moves the
violation up; on a tie the exchange is harmless. -/
theorem RisingAt.exchange (h : RisingAt ord d n p) (hp : 0 < p) (hn : p < n)
    (hl : ord.less (d (parent p)) (d p) = false) :
    RisingAt ord (d ∘ Equiv.swap (parent p) p) n (parent p) := by
  have hlt := parent_lt hp
  have hat : (d ∘ Equiv.swap (parent p) p) (parent p) = d p := by simp
  have hat' : (d ∘ Equiv.swap (parent p) p) p = d (parent p) := by simp
  have hoff : ∀ i, i ≠ parent p → i ≠ p → (d ∘ Equiv.swap (parent p) p) i = d i :=
    fun i h1 h2 => by simp [Equiv.swap_apply_of_ne_of_ne h1 h2]
  constructor
  · intro i hi hin hne
    by_cases h1 : i = p
    · subst h1
      rw [hat, hat']
      exact hl
    rw [hoff i hne h1]
    by_cases h2 : parent i = p
    · rw [h2, hat']
      exact h.grand i hi hin h2 hp
    by_cases h3 : parent i = parent p
    · rw [h3, hat]
      exact ord.not_less_trans hl (h3 ▸ h.except i hi hin h1)
    · rw [hoff _ h3 h2]
      exact h.except i hi hin h1
  · intro c hc hcn hcp hpp
    have hlt' := parent_lt hpp
    have hup := h.except (parent p) hpp (by omega) hlt.ne
    rw [hoff (parent (parent p)) hlt'.ne (by omega)]
    by_cases h1 : c = p
    · subst h1
      rw [hat']
      exact hup
    · have hcl := parent_lt hc
      rw [hoff c (by omega) h1]
      exact ord.not_less_trans hup (hcp ▸ h.except c hc hcn h1)

/-- At the root, or below a lesser parent, the order is restored. -/
theorem RisingAt.ordered (h : RisingAt ord d n p)
    (hd : 0 < p → ord.less (d (parent p)) (d p) = true) : OrderedFrom ord d n 0 := by
  intro i hi hin _
  by_cases hp : i = p
  · subst hp; exact ord.asymm (hd hi)
  · exact h.except i hi hin hp

end Order

/-- Heap order only depends on the slots below `n`. -/
theorem OrderedFrom.congr {α : Type} {ord : StrictWeakOrder α} {d d' : Nat → α} {n k : Nat}
    (h : OrderedFrom ord d n k) (he : ∀ i, i < n → k ≤ i → d' i = d i) : OrderedFrom ord d' n k := by
  intro i hi hin hk
  have hlt := parent_lt hi
  rw [he i hin (by omega), he (parent i) (by omega) hk]
  exact h i hi hin hk

/-- Overwriting a slot exchanges one element for another. -/
theorem map_range_update {α : Type} (d : Nat → α) {n i : Nat} (hi : i < n) (x : α) :
    d i ::ₘ (Multiset.range n).map (Function.update d i x) = x ::ₘ (Multiset.range n).map d := by
  have hr : Multiset.range n = i ::ₘ (Multiset.range n).erase i :=
    (Multiset.cons_erase (Multiset.mem_range.mpr hi)).symm
  have he : ((Multiset.range n).erase i).map (Function.update d i x) =
      ((Multiset.range n).erase i).map d := by
    refine Multiset.map_congr rfl fun j hj => ?_
    rw [Function.update_of_ne ((Multiset.nodup_range n).mem_erase_iff.mp hj).1]
  rw [hr, Multiset.map_cons, Multiset.map_cons, he, Function.update_self, Multiset.cons_swap]

/-- Rearranging the first `n` slots among themselves keeps their multiset. -/
theorem map_range_comp_perm {α : Type} (d : Nat → α) {n : Nat} (σ : Equiv.Perm Nat)
    (hσ : ∀ i, n ≤ i → σ i = i) : (Multiset.range n).map (d ∘ σ) = (Multiset.range n).map d := by
  have hlt : ∀ i, i < n → σ i < n := fun i hi => by
    by_contra hc
    have he := σ.injective (hσ (σ i) (by omega))
    omega
  have hr : (Multiset.range n).map σ = Multiset.range n := by
    refine (((Multiset.nodup_range n).map σ.injective).ext (Multiset.nodup_range n)).mpr fun a => ?_
    rw [Multiset.mem_map, Multiset.mem_range]
    constructor
    · rintro ⟨i, hi, rfl⟩
      exact hlt i (Multiset.mem_range.mp hi)
    · intro ha
      refine ⟨σ.symm a, Multiset.mem_range.mpr ?_, σ.apply_symm_apply a⟩
      by_contra hc
      have he := hσ (σ.symm a) (by omega)
      rw [σ.apply_symm_apply] at he
      omega
  rw [← Multiset.map_map, hr]

end ImplicitHeap
end CommonProject.Foundations

import CommonProject.Foundations.ImplicitHeap

/-! Sifting in the implicit binary tree over the indices below `n`, and the priority queue that
the first `n` elements are. -/
namespace CommonProject.Foundations.ImplicitHeap
variable {α : Type}

def contents (d : Nat → α) (n : Nat) : Multiset α := (Multiset.range n).map d

/-- The slot of a least element of `p` and its children, where the left child is below `n`. -/
def leastOf (less : α → α → Bool) (n : Nat) (d : Nat → α) (p : Nat) : Nat :=
  let s := if less (d (p * 2 + 1)) (d p) then p * 2 + 1 else p
  if p * 2 + 2 < n then if less (d (p * 2 + 2)) (d s) then p * 2 + 2 else s else s

private theorem leastOf_cases (less : α → α → Bool) (n : Nat) (d : Nat → α) (p : Nat) :
    leastOf less n d p = p ∨ leastOf less n d p = p * 2 + 1 ∨
      leastOf less n d p = p * 2 + 2 ∧ p * 2 + 2 < n := by
  unfold leastOf
  grind

theorem leastOf_child {less : α → α → Bool} {n : Nat} {d : Nat → α} {p : Nat}
    (hn : p * 2 + 1 < n) (hs : leastOf less n d p ≠ p) :
    0 < leastOf less n d p ∧ parent (leastOf less n d p) = p ∧ leastOf less n d p < n := by
  rcases leastOf_cases less n d p with h | h | ⟨h, hr⟩
  · exact absurd h hs
  · rw [h, parent_eq_iff (by omega)]
    exact ⟨by omega, .inl rfl, hn⟩
  · rw [h, parent_eq_iff (by omega)]
    exact ⟨by omega, .inr rfl, hr⟩

def siftDown (less : α → α → Bool) (n : Nat) (d : Nat → α) (p : Nat) : Nat → α :=
  if _h : p * 2 + 1 < n ∧ leastOf less n d p ≠ p then
    siftDown less n (d ∘ Equiv.swap (leastOf less n d p) p) (leastOf less n d p)
  else d
termination_by n - p
decreasing_by
  obtain ⟨h0, hp, -⟩ := leastOf_child _h.1 _h.2
  have hlt := parent_lt h0
  omega

def siftUp (less : α → α → Bool) (d : Nat → α) (p : Nat) : Nat → α :=
  if _h : 0 < p then
    if less (d (parent p)) (d p) then d
    else siftUp less (d ∘ Equiv.swap (parent p) p) (parent p)
  else d
termination_by p
decreasing_by exact parent_lt _h

def siftAll (less : α → α → Bool) (n : Nat) (d : Nat → α) : Nat → Nat → α
  | 0 => siftDown less n d 0
  | i + 1 => siftAll less n (siftDown less n d (i + 1)) i

section Permutation
variable {d d' d'' : Nat → α} {n p q : Nat}

/-- The same elements, rearranged in the slots of the subtree at `p` that are below `n`. -/
def Rearranged (n p : Nat) (d d' : Nat → α) : Prop :=
  ∃ σ : Equiv.Perm Nat, d' = d ∘ σ ∧ ∀ i, ¬ (Below p i ∧ i < n) → σ i = i

theorem Rearranged.refl (n p : Nat) (d : Nat → α) : Rearranged n p d d :=
  ⟨Equiv.refl Nat, rfl, fun _ _ => rfl⟩

theorem Rearranged.trans (h : Rearranged n p d d') (h' : Rearranged n q d' d'') (hb : Below p q) :
    Rearranged n p d d'' := by
  obtain ⟨σ, hd, hσ⟩ := h
  obtain ⟨τ, hd', hτ⟩ := h'
  refine ⟨τ.trans σ, by rw [hd', hd]; rfl, fun i hi => ?_⟩
  have ht : τ i = i := hτ i fun hx => hi ⟨hb.trans hx.1, hx.2⟩
  rw [Equiv.trans_apply, ht, hσ i hi]

theorem Rearranged.mono (h : Rearranged n q d d') (hb : Below p q) : Rearranged n p d d' :=
  (Rearranged.refl n p d).trans h hb

theorem Rearranged.swap {i j : Nat} (d : Nat → α) (hi : Below p i) (hj : Below p j) (hin : i < n)
    (hjn : j < n) : Rearranged n p d (d ∘ Equiv.swap i j) := by
  refine ⟨Equiv.swap i j, rfl, fun k hk => Equiv.swap_apply_of_ne_of_ne ?_ ?_⟩
  · rintro rfl
    exact hk ⟨hi, hin⟩
  · rintro rfl
    exact hk ⟨hj, hjn⟩

theorem Rearranged.eq_outside (h : Rearranged n p d d') {i : Nat} (hi : ¬ (Below p i ∧ i < n)) :
    d' i = d i := by
  obtain ⟨σ, rfl, hσ⟩ := h
  rw [Function.comp_apply, hσ i hi]

/-- No element is lost or doubled. -/
theorem Rearranged.contents_eq (h : Rearranged n p d d') : contents d' n = contents d n := by
  obtain ⟨σ, rfl, hσ⟩ := h
  exact map_range_comp_perm d σ fun i hi => hσ i fun hx => absurd hx.2 (by omega)

theorem siftDown_rearranged (less : α → α → Bool) (n : Nat) (d : Nat → α) (p : Nat) :
    Rearranged n p d (siftDown less n d p) := by
  fun_induction siftDown less n d p with
  | case1 d p h ih =>
    obtain ⟨h0, hp, hsn⟩ := leastOf_child h.1 h.2
    have hb : Below p (leastOf less n d p) := .child h0 (by rw [hp]; exact .refl)
    exact (Rearranged.swap d hb .refl hsn (by omega)).trans ih hb
  | case2 d p h => exact .refl n p d

private theorem siftUp_rearranged (less : α → α → Bool) (d : Nat → α) (hn : p < n) :
    Rearranged n 0 d (siftUp less d p) := by
  fun_induction siftUp less d p with
  | case1 d p h hl => exact .refl n 0 d
  | case2 d p h hl ih =>
    have hlt := parent_lt h
    exact (Rearranged.swap d (below_zero _) (below_zero _) (by omega) hn).trans (ih (by omega)) .refl
  | case3 d p h => exact .refl n 0 d

theorem siftAll_rearranged (less : α → α → Bool) (n : Nat) (d : Nat → α) (i : Nat) :
    Rearranged n 0 d (siftAll less n d i) := by
  induction i generalizing d with
  | zero => exact siftDown_rearranged less n d 0
  | succ i ih => exact ((siftDown_rearranged less n d (i + 1)).mono (below_zero _)).trans (ih _) .refl

end Permutation

section Order
variable {ord : StrictWeakOrder α} {d : Nat → α} {n p : Nat}

/-- The chosen slot holds no more than the moving element and its children. -/
private theorem leastOf_least (ord : StrictWeakOrder α) (n : Nat) (d : Nat → α) (p : Nat) :
    ord.less (d p) (d (leastOf ord.less n d p)) = false ∧
    ∀ c, 0 < c → c < n → parent c = p → ord.less (d c) (d (leastOf ord.less n d p)) = false := by
  have hleft : ∀ s, s = (if ord.less (d (p * 2 + 1)) (d p) then p * 2 + 1 else p) →
      ord.less (d p) (d s) = false ∧ ord.less (d (p * 2 + 1)) (d s) = false := by
    rintro s rfl
    split
    · exact ⟨ord.asymm ‹_›, ord.irrefl _⟩
    · exact ⟨ord.irrefl _, Bool.eq_false_of_not_eq_true ‹_›⟩
  unfold leastOf
  dsimp only
  generalize hs : (if ord.less (d (p * 2 + 1)) (d p) then p * 2 + 1 else p) = s
  obtain ⟨hp, hl⟩ := hleft s hs.symm
  split
  · split
    · have ha := ord.asymm ‹_›
      refine ⟨ord.not_less_trans ha hp, fun c hc _ hcp => ?_⟩
      rcases (parent_eq_iff hc).mp hcp with rfl | rfl
      · exact ord.not_less_trans ha hl
      · exact ord.irrefl _
    · refine ⟨hp, fun c hc _ hcp => ?_⟩
      rcases (parent_eq_iff hc).mp hcp with rfl | rfl
      · exact hl
      · exact Bool.eq_false_of_not_eq_true ‹_›
  · refine ⟨hp, fun c hc hcn hcp => ?_⟩
    rcases (parent_eq_iff hc).mp hcp with rfl | rfl
    · exact hl
    · omega

/-- A chosen child is less than the moving element. -/
private theorem leastOf_less (hs : leastOf ord.less n d p ≠ p) :
    ord.less (d (leastOf ord.less n d p)) (d p) = true := by
  unfold leastOf at hs ⊢
  dsimp only at hs ⊢
  by_cases hl : ord.less (d (p * 2 + 1)) (d p) = true
  · simp only [hl, if_true] at hs ⊢
    split
    · split
      · exact ord.trans ‹_› hl
      · exact hl
    · exact hl
  · simp only [hl] at hs ⊢
    split at hs <;> simp_all

/-- Sifting down repairs an order whose only violation is at `p`. -/
theorem siftDown_orderedOn {S : Nat → Prop} (hS : ∀ i, 0 < i → S (parent i) → S i) (hp : S p)
    (hs : SinkingOn ord d n S p) : OrderedOn ord (siftDown ord.less n d p) n S := by
  fun_induction siftDown ord.less n d p with
  | case1 d p h ih =>
    obtain ⟨h0, hpar, hsn⟩ := leastOf_child h.1 h.2
    have hleast : S (leastOf ord.less n d p) := hS _ h0 (by rwa [hpar])
    exact ih hleast <| hs.exchange hleast h0 hsn hpar (leastOf_less h.2) (leastOf_least ord n d p).2
  | case2 d p h =>
    refine hs.ordered fun c hc hcn hcp => ?_
    have hchild := (parent_eq_iff hc).mp hcp
    have he : leastOf ord.less n d p = p := by
      by_contra hne
      exact h ⟨by omega, hne⟩
    have hl := (leastOf_least ord n d p).2 c hc hcn hcp
    rwa [he] at hl

private theorem siftDown_ordered {k : Nat} (hk : k ≤ p) (hs : SinkingAt ord d n k p) :
    OrderedFrom ord (siftDown ord.less n d p) n k :=
  siftDown_orderedOn (fun _ hi hle => hle.trans (parent_lt hi).le) hk ⟨hs.except, hs.grand⟩

/-- Sifting up repairs an order whose only violation is between `p` and its parent. -/
theorem siftUp_ordered (hn : p < n) (hs : RisingAt ord d n p) :
    OrderedFrom ord (siftUp ord.less d p) n 0 := by
  fun_induction siftUp ord.less d p with
  | case1 d p h hl => exact hs.ordered fun _ => hl
  | case2 d p h hl ih =>
    have hlt := parent_lt h
    exact ih (by omega) (hs.exchange h hn (Bool.eq_false_of_not_eq_true hl))
  | case3 d p h => exact hs.ordered fun hp => absurd hp h

/-- Each sift meets two finished heaps below its slot. -/
theorem siftAll_ordered {i : Nat} (hs : OrderedFrom ord d n (i + 1)) :
    OrderedFrom ord (siftAll ord.less n d i) n 0 := by
  induction i generalizing d with
  | zero => exact siftDown_ordered le_rfl hs.sinking
  | succ i ih => exact ih (siftDown_ordered le_rfl hs.sinking)

/-- From the middle down, any contents are put in order. -/
theorem siftAll_half_ordered (ord : StrictWeakOrder α) (d : Nat → α) (n : Nat) :
    OrderedFrom ord (siftAll ord.less n d (n / 2)) n 0 :=
  siftAll_ordered ((orderedFrom_half ord d n).of_le (by omega))

end Order

section Queue
variable {ord : StrictWeakOrder α} {d : Nat → α} {n : Nat}

theorem card_contents (d : Nat → α) (n : Nat) : Multiset.card (contents d n) = n := by
  simp [contents]

private theorem contents_succ (d : Nat → α) (n : Nat) :
    contents d (n + 1) = d n ::ₘ contents d n := by
  rw [contents, Multiset.range_succ, Multiset.map_cons]
  rfl

private theorem contents_congr {d' : Nat → α} (h : ∀ i, i < n → d' i = d i) :
    contents d' n = contents d n :=
  Multiset.map_congr rfl fun i hi => h i (Multiset.mem_range.mp hi)

/-- Overwriting the first slot disturbs nothing but the root. -/
private theorem root_sinking (h : OrderedFrom ord d n 0) (x : α) :
    SinkingAt ord (Function.update d 0 x) n 0 0 := by
  refine OrderedFrom.sinking ((h.of_le (Nat.zero_le 1)).congr fun i _ hi => ?_)
  rw [Function.update_of_ne (by omega)]

theorem replace_ordered (h : OrderedFrom ord d n 0) (x : α) :
    OrderedFrom ord (siftDown ord.less n (Function.update d 0 x) 0) n 0 :=
  siftDown_ordered le_rfl (root_sinking h x)

theorem replace_contents (less : α → α → Bool) (d : Nat → α) (hn : 0 < n) (x : α) :
    d 0 ::ₘ contents (siftDown less n (Function.update d 0 x) 0) n = x ::ₘ contents d n := by
  rw [(siftDown_rearranged less n _ 0).contents_eq]
  exact map_range_update d hn x

theorem pop_ordered (h : OrderedFrom ord d (n + 1) 0) :
    OrderedFrom ord (siftDown ord.less n (Function.update d 0 (d n)) 0) n 0 :=
  replace_ordered (fun i hi hin hk => h i hi (by omega) hk) (d n)

/-- Taking the last slot away and its element to the root leaves the other elements. -/
theorem pop_contents (less : α → α → Bool) (d : Nat → α) (n : Nat) :
    d 0 ::ₘ contents (siftDown less n (Function.update d 0 (d n)) 0) n = contents d (n + 1) := by
  rcases Nat.eq_zero_or_pos n with rfl | hpos
  · rw [contents_succ]
    rfl
  · rw [replace_contents less d hpos, contents_succ]

theorem push_ordered (h : OrderedFrom ord d n 0) (x : α) :
    OrderedFrom ord (siftUp ord.less (Function.update d n x) n) (n + 1) 0 := by
  refine siftUp_ordered (Nat.lt_succ_self n) (OrderedFrom.rising ?_)
  exact h.congr fun i hi _ => Function.update_of_ne hi.ne _ _

theorem push_contents (less : α → α → Bool) (d : Nat → α) (n : Nat) (x : α) :
    contents (siftUp less (Function.update d n x) n) (n + 1) = x ::ₘ contents d n := by
  rw [(siftUp_rearranged less _ (Nat.lt_succ_self n)).contents_eq, contents_succ,
    Function.update_self]
  congr 1
  exact contents_congr fun i hi => Function.update_of_ne hi.ne _ _

end Queue
end CommonProject.Foundations.ImplicitHeap

import CommonProject.Foundations.HeapLevels
import CommonProject.Heap.Basic

/-! The loops of `min_heap.c` do what sifting does on unbounded numbers, as long as what they compute
is in the range of `int`, with one exchange and two tests for a level of the tree. -/
namespace CommonProject.Heap
open Foundations Foundations.ImplicitHeap
variable {α : Type} {func : MinHeapCallbacks α} {heap : MinHeap α} {pos : Nat}

section Pointers

private theorem slotAt_mul (hes : 1 ≤ (func.elemSize : Int)) (i : Nat) :
    slotAt func (i * func.elemSize) = i := by
  rw [slotAt, Int.mul_ediv_cancel _ (by omega), Int.toNat_natCast]

theorem elementAt_mul (hes : 1 ≤ (func.elemSize : Int)) (heap : MinHeap α) (i : Nat) :
    elementAt func heap (i * func.elemSize) = heap.data i := by
  rw [elementAt, slotAt_mul hes]

theorem swp_mul (hes : 1 ≤ (func.elemSize : Int)) (heap : MinHeap α) (i j : Nat) :
    swp func heap (i * func.elemSize) (j * func.elemSize) =
      { heap with data := heap.data ∘ Equiv.swap i j } := by
  rw [swp, slotAt_mul hes, slotAt_mul hes]

theorem mul_eq_mul_iff {es : Int} (hes : 1 ≤ es) (i j : Nat) : (i : Int) * es = j * es ↔ i = j := by
  rw [Int.mul_eq_mul_right_iff (by omega), Int.natCast_inj]

theorem inInt_of_le {es : Int} (hes : 1 ≤ es) {i : Nat} (h : (i : Int) * es ≤ 2147483647) :
    InInt (i * es) := by
  have h0 : 0 ≤ (i : Int) * es := Int.mul_nonneg (Int.natCast_nonneg i) (by omega)
  exact ⟨by omega, h⟩

theorem inInt_mul {es : Int} (hes : 1 ≤ es) {i j : Nat} (hij : i ≤ j) (hj : InInt (j * es)) :
    InInt (i * es) :=
  inInt_of_le hes ((Int.mul_le_mul_of_nonneg_right (by omega) (by omega)).trans hj.2)

theorem copyTo_mul (hes : 1 ≤ (func.elemSize : Int)) (heap : MinHeap α) (i : Nat) (x : α) :
    copyTo func heap (i * func.elemSize) x = { heap with data := Function.update heap.data i x } := by
  rw [copyTo, slotAt_mul hes]

theorem copyTo_zero (func : MinHeapCallbacks α) (heap : MinHeap α) (x : α) :
    copyTo func heap 0 x = { heap with data := Function.update heap.data 0 x } := by
  rw [copyTo, slotAt, Int.zero_ediv, Int.toNat_zero]

theorem ends_offset {β : Type} {f : Int → HeapProg β} {R : β → List Call → Prop} {index : Int}
    (h : InInt (index * func.elemSize)) (hf : Ends (f (index * func.elemSize)) R) :
    Ends (Heap.offset func index >>= f) R := by
  rw [Heap.offset, bind_assoc]
  exact .compute h hf

theorem overflows_offset {β : Type} {f : Int → HeapProg β} {index : Int}
    (h : ¬ InInt (index * func.elemSize)) : Overflows (Heap.offset func index >>= f) :=
  (Overflows.compute h).bind

theorem overflows_after_offset {β : Type} {f : Int → HeapProg β} {index : Int}
    (h : InInt (index * func.elemSize)) (hf : Overflows (f (index * func.elemSize))) :
    Overflows (Heap.offset func index >>= f) := by
  rw [Heap.offset, bind_assoc]
  exact .after_compute h hf

theorem MinHeap.lt_count {i : Nat} : i < heap.count ↔ (i : Int) < heap.nr := by
  rw [MinHeap.count]
  omega

theorem MinHeap.count_eq (h0 : 0 ≤ (heap.nr : Int)) : (heap.count : Int) = heap.nr :=
  Int.toNat_of_nonneg h0

end Pointers

section Charges

def Call.isLess : Call → Bool
  | .less _ _ => true
  | _ => false

def Call.isSwp : Call → Bool
  | .swp _ _ => true
  | _ => false

def Call.exchange : Call → Option (Int × Int)
  | .swp lhs rhs => some (lhs, rhs)
  | _ => none

def swaps (calls : List Call) : List (Int × Int) := calls.filterMap Call.exchange

def SlotOffset (es n o : Int) : Prop := ∃ i : Int, 0 ≤ i ∧ i < n ∧ o = i * es

def TwoSlots (es nr lhs rhs : Int) : Prop :=
  ∃ i j : Nat, i ≠ j ∧ (i : Int) < nr ∧ (j : Int) < nr ∧ lhs = i * es ∧ rhs = j * es

/-- A callback is given two different slots in use, and a copy goes to a slot and comes from one. -/
def Proper (es nr size : Int) : Call → Prop
  | .less lhs rhs => TwoSlots es nr lhs rhs
  | .swp lhs rhs => TwoSlots es nr lhs rhs
  | .memcpy dest src => SlotOffset es size dest ∧ ∀ o ∈ src, SlotOffset es size o

structure Charge (es nr size : Int) (calls : List Call) (tests swaps : Nat) : Prop where
  proper : ∀ call ∈ calls, Proper es nr size call
  testsLe : calls.countP Call.isLess ≤ tests
  swapsLe : calls.countP Call.isSwp ≤ swaps

variable {es nr size : Int} {call : Call} {calls calls' : List Call} {t t' s s' : Nat}

theorem Proper.pointers (h : Proper es nr size call) (hs : nr ≤ size) :
    ∀ o ∈ call.pointers, SlotOffset es size o := by
  have htwo : ∀ {lhs rhs : Int}, TwoSlots es nr lhs rhs →
      ∀ o ∈ [lhs, rhs], SlotOffset es size o := by
    rintro lhs rhs ⟨i, j, -, hi, hj, rfl, rfl⟩ o ho
    rcases List.mem_pair.mp ho with rfl | rfl
    · exact ⟨i, by omega, by omega, rfl⟩
    · exact ⟨j, by omega, by omega, rfl⟩
  cases call with
  | less => exact htwo h
  | swp => exact htwo h
  | memcpy dest src =>
    intro o ho
    rcases List.mem_cons.mp ho with rfl | ho
    · exact h.1
    · exact h.2 o (Option.mem_toList.mp ho)

theorem Charge.nil (es nr size : Int) : Charge es nr size [] 0 0 :=
  ⟨fun _ h => absurd h List.not_mem_nil, le_rfl, le_rfl⟩

theorem Charge.append (h : Charge es nr size calls t s) (h' : Charge es nr size calls' t' s') :
    Charge es nr size (calls ++ calls') (t + t') (s + s') where
  proper call hc := (List.mem_append.mp hc).elim (h.proper call) (h'.proper call)
  testsLe := by
    rw [List.countP_append]
    exact Nat.add_le_add h.testsLe h'.testsLe
  swapsLe := by
    rw [List.countP_append]
    exact Nat.add_le_add h.swapsLe h'.swapsLe

theorem Charge.mono (h : Charge es nr size calls t s) (ht : t ≤ t') (hs : s ≤ s') :
    Charge es nr size calls t' s' :=
  ⟨h.proper, h.testsLe.trans ht, h.swapsLe.trans hs⟩

private theorem Charge.less {lhs rhs : Int} (h : TwoSlots es nr lhs rhs) :
    Charge es nr size [.less lhs rhs] 1 0 :=
  ⟨List.forall_mem_singleton.mpr h, le_rfl, le_rfl⟩

private theorem Charge.swp {lhs rhs : Int} (h : TwoSlots es nr lhs rhs) :
    Charge es nr size [.swp lhs rhs] 0 1 :=
  ⟨List.forall_mem_singleton.mpr h, le_rfl, le_rfl⟩

theorem Charge.memcpy (nr : Int) {dest : Int} {src : Option Int} (hd : SlotOffset es size dest)
    (hs : ∀ o ∈ src, SlotOffset es size o) : Charge es nr size [.memcpy dest src] 0 0 :=
  ⟨List.forall_mem_singleton.mpr ⟨hd, hs⟩, le_rfl, le_rfl⟩

private theorem swaps_append (calls calls' : List Call) :
    swaps (calls ++ calls') = swaps calls ++ swaps calls' :=
  List.filterMap_append ..

private theorem Charge.swaps_eq_nil (h : Charge es nr size calls t 0) : swaps calls = [] := by
  refine List.filterMap_eq_nil_iff.mpr fun call hc => ?_
  have hno := List.countP_eq_zero.mp (Nat.le_zero.mp h.swapsLe) call hc
  cases call with
  | swp => exact absurd rfl hno
  | _ => rfl

end Charges

section Down

/-- What a sift from `pos` may compute, wherever it is led, is in the range of `int`. -/
def SiftFits (nr es : Int) (pos : Nat) : Prop :=
  InInt (pos * 2 + 1 : Nat) ∧ ∀ g : Nat, Below pos g → (g : Int) < nr →
    InInt (g * 2 + 1 : Nat) ∧ (g ≠ pos → InInt (g * es))

theorem below_child {c : Nat} (hc : 0 < c) (hp : parent c = pos) : Below pos c :=
  .child hc (hp ▸ .refl)

private theorem SiftFits.child {nr es : Int} {c : Nat} (h : SiftFits nr es pos) (hc : 0 < c)
    (hp : parent c = pos) (hn : (c : Int) < nr) : SiftFits nr es c := by
  have hlt := parent_lt hc
  have hb := below_child hc hp
  refine ⟨(h.2 c hb hn).1, fun g hg hgn => ?_⟩
  have hle := hg.le
  have hfit := h.2 g (hb.trans hg) hgn
  exact ⟨hfit.1, fun _ => hfit.2 (by omega)⟩

/-- The offset of a child can be computed. -/
private theorem SiftFits.offset {nr es : Int} {c : Nat} (h : SiftFits nr es pos) (hc : 0 < c)
    (hp : parent c = pos) (hn : (c : Int) < nr) : InInt (c * es) := by
  have hlt := parent_lt hc
  exact (h.2 c (below_child hc hp) hn).2 (by omega)

theorem lesser_spec (hes : 1 ≤ (func.elemSize : Int)) (heap : MinHeap α) (i j : Nat) :
    Ends (lesser func heap (i * func.elemSize) (j * func.elemSize)) fun smallest calls =>
      smallest = ((if func.less (heap.data i) (heap.data j) then i else j : Nat) *
        func.elemSize : Int) ∧
      calls = [.less (i * func.elemSize) (j * func.elemSize)] := by
  refine .record (.pure ⟨?_, rfl⟩)
  rw [elementAt_mul hes, elementAt_mul hes]
  split <;> rfl

/-- One turn tests a child against its parent or its sibling. -/
theorem smallestOf_spec (hes : 1 ≤ (func.elemSize : Int)) (heap : MinHeap α) {pos : Nat}
    (hfit : ∀ c : Nat, 0 < c → parent c = pos → (c : Int) < heap.nr → InInt (c * func.elemSize))
    (hn : pos * 2 + 1 < heap.count) :
    Ends (smallestOf func heap pos) fun pointers calls =>
      pointers = (((pos * 2 + 1 : Nat) * func.elemSize : Int), (pos * func.elemSize : Int),
        (leastOf func.less heap.count heap.data pos * func.elemSize : Int)) ∧
      Charge func.elemSize heap.nr heap.size calls 2 0 := by
  have hn' := MinHeap.lt_count.mp hn
  have hmax := heap.nr.2.2
  have hleft := hfit _ (by omega) ((parent_eq_iff (by omega)).mpr (.inl rfl)) hn'
  refine ends_offset hleft (ends_offset (inInt_mul hes (by omega) hleft) ?_)
  refine (lesser_spec hes heap (pos * 2 + 1) pos).bind ?_
  rintro _ _ ⟨rfl, rfl⟩
  have hfirst : Charge func.elemSize heap.nr heap.size [.less ((pos * 2 + 1 : Nat) * func.elemSize)
      (pos * func.elemSize)] 1 0 := .less ⟨_, _, by omega, hn', by omega, rfl, rfl⟩
  refine .compute ⟨by omega, by omega⟩ ?_
  rw [leastOf]
  by_cases hr : pos * 2 + 2 < heap.count
  · have hr' := MinHeap.lt_count.mp hr
    simp only [hr, hr', if_true]
    refine ends_offset (hfit _ (by omega) ((parent_eq_iff (by omega)).mpr (.inr rfl)) hr') ?_
    refine (lesser_spec hes heap (pos * 2 + 2) _).bind ?_
    rintro _ _ ⟨rfl, rfl⟩
    refine .pure ⟨rfl, hfirst.append (.less ⟨_, _, ?_, hr', ?_, rfl, rfl⟩)⟩
    · split <;> omega
    · split <;> omega
  · have hr' := mt MinHeap.lt_count.mpr hr
    simp only [hr, hr', if_false]
    exact .pure ⟨rfl, hfirst.mono (Nat.le_succ 1) le_rfl⟩

/-- A turn that exchanges goes on at the smallest child. -/
theorem minHeapify_next (heap : MinHeap α) {c : Nat} (hc : 0 < c) (hp : parent c = pos) :
    (if c = pos * 2 + 1 then minHeapify func heap (pos * 2 + 1)
      else minHeapify func heap (pos * 2 + 2)) = minHeapify func heap c := by
  rcases (parent_eq_iff hc).mp hp with rfl | rfl
  · rw [if_pos rfl]
  · rw [if_neg (by omega)]

/-- Sifting down costs at most two tests and one exchange for each level below the slot, and the
exchanges make the result. -/
theorem minHeapify_spec (hes : 1 ≤ (func.elemSize : Int)) (heap : MinHeap α) (pos : Nat)
    (hfit : SiftFits heap.nr func.elemSize pos) :
    Ends (minHeapify func heap pos) fun heap' calls =>
      heap' = { heap with data := siftDown func.less heap.count heap.data pos } ∧
      Charge func.elemSize heap.nr heap.size calls (2 * levels heap.count pos)
        (levels heap.count pos) ∧
      (swaps calls).foldl (fun heap s => swp func heap s.1 s.2) heap = heap' := by
  induction hk : heap.count - pos using Nat.strongRecOn generalizing heap pos with
  | ind k ih =>
    have hlast := hfit.1.2
    rw [minHeapify, siftDown]
    refine .compute ⟨by omega, by omega⟩ (.compute hfit.1 ?_)
    by_cases hn : pos * 2 + 1 < heap.count
    case neg =>
      have hstop := mt MinHeap.lt_count.mpr hn
      rw [dif_pos (not_lt.mp hstop), dif_neg fun h => hn h.1]
      exact .pure ⟨rfl, (Charge.nil _ _ _).mono (Nat.zero_le _) (Nat.zero_le _), rfl⟩
    have hlevel : 0 < levels heap.count pos := levels_pos hn
    rw [dif_neg (not_le.mpr (MinHeap.lt_count.mp hn))]
    refine (smallestOf_spec hes heap (fun c => hfit.offset) hn).bind ?_
    rintro _ tests ⟨rfl, htests⟩
    simp only [mul_eq_mul_iff hes]
    by_cases hs : leastOf func.less heap.count heap.data pos = pos
    · rw [if_pos hs, dif_neg fun h => h.2 hs]
      refine .pure ⟨rfl, ?_, ?_⟩
      · rw [List.append_nil]
        exact htests.mono (by omega) (by omega)
      · rw [List.append_nil, htests.swaps_eq_nil]
        rfl
    obtain ⟨hpos, hp, hsn⟩ := leastOf_child hn hs
    have hlt := parent_lt hpos
    have hsn' := MinHeap.lt_count.mp hsn
    rw [if_neg hs, dif_pos ⟨hn, hs⟩]
    generalize leastOf func.less heap.count heap.data pos = c at *
    -- the level that the exchange goes down pays for this turn
    have hdown : levels heap.count c + 1 ≤ levels heap.count pos := hp ▸ levels_child hpos hsn
    have hswap : Charge func.elemSize heap.nr heap.size
        [.swp (c * func.elemSize) (pos * func.elemSize)] 0 1 :=
      .swp ⟨_, _, hs, hsn', by omega, rfl, rfl⟩
    have hfold : swaps [.swp (c * func.elemSize) (pos * func.elemSize)] =
        [((c * func.elemSize : Int), (pos * func.elemSize : Int))] := rfl
    refine .record ?_
    rw [minHeapify_next _ hpos hp, swp_mul hes]
    refine (ih _ ?_ { heap with data := heap.data ∘ Equiv.swap c pos } c (hfit.child hpos hp hsn')
      rfl).mono ?_
    · simp only [MinHeap.count] at *
      omega
    · rintro _ calls ⟨rfl, hrest, hfold'⟩
      refine ⟨rfl, (htests.append (hswap.append hrest)).mono ?_ ?_, ?_⟩
      · simp only [MinHeap.count] at *
        omega
      · simp only [MinHeap.count] at *
        omega
      · rw [← List.singleton_append, swaps_append, swaps_append, htests.swaps_eq_nil, hfold,
          List.nil_append, List.singleton_append, List.foldl_cons, swp_mul hes]
        exact hfold'

/-- The loop over all slots costs as much as the sifts together. -/
theorem minHeapifyFrom_spec (hes : 1 ≤ (func.elemSize : Int)) (heap : MinHeap α) (i : Nat)
    (hfit : ∀ j ≤ i, SiftFits heap.nr func.elemSize j) :
    Ends (minHeapifyFrom func heap i) fun heap' calls =>
      heap' = { heap with data := siftAll func.less heap.count heap.data i } ∧
      Charge func.elemSize heap.nr heap.size calls
        (2 * ∑ j ∈ Finset.range (i + 1), levels heap.count j)
        (∑ j ∈ Finset.range (i + 1), levels heap.count j) := by
  induction i generalizing heap with
  | zero =>
    rw [minHeapifyFrom, siftAll, Finset.sum_range_one]
    refine (minHeapify_spec hes heap 0 (hfit 0 le_rfl)).mono ?_
    rintro _ calls ⟨h, hc, -⟩
    exact ⟨h, hc⟩
  | succ i ih =>
    rw [minHeapifyFrom, siftAll]
    refine (minHeapify_spec hes heap (i + 1) (hfit _ le_rfl)).bind ?_
    rintro _ calls ⟨rfl, hturn, -⟩
    refine (ih { heap with data := siftDown func.less heap.count heap.data (i + 1) } fun j hj =>
      hfit j (hj.trans (Nat.le_succ i))).mono ?_
    rintro _ calls' ⟨rfl, hrest⟩
    refine ⟨rfl, (hturn.append hrest).mono ?_ ?_⟩
    · rw [Finset.sum_range_succ _ (i + 1), ← Nat.mul_add, Nat.add_comm]
      rfl
    · rw [Finset.sum_range_succ _ (i + 1), Nat.add_comm]
      rfl

end Down

section Up

/-- Sifting up costs at most one test and one exchange for each level above the slot. -/
theorem minHeapPushLoop_spec (hes : 1 ≤ (func.elemSize : Int)) (heap : MinHeap α) (pos : Nat)
    (hfit : InInt (pos * func.elemSize)) (hn : (pos : Int) < heap.nr) :
    Ends (minHeapPushLoop func heap pos) fun heap' calls =>
      heap' = { heap with data := siftUp func.less heap.data pos } ∧
      Charge func.elemSize heap.nr heap.size calls (depth pos) (depth pos) := by
  induction pos using Nat.strongRecOn generalizing heap with
  | ind pos ih =>
    rw [minHeapPushLoop, siftUp]
    by_cases hpos : 0 < pos
    case neg =>
      rw [dif_neg hpos, dif_neg hpos]
      exact .pure ⟨rfl, (Charge.nil _ _ _).mono (Nat.zero_le _) (Nat.zero_le _)⟩
    have hlt : (pos - 1) / 2 < pos := parent_lt hpos
    have hd : depth pos = depth ((pos - 1) / 2) + 1 := depth_parent hpos
    have hparent := inInt_mul hes hlt.le hfit
    have hslots : TwoSlots func.elemSize heap.nr (((pos - 1) / 2 : Nat) * func.elemSize)
        (pos * func.elemSize) := ⟨_, _, hlt.ne, by omega, hn, rfl, rfl⟩
    rw [dif_pos hpos, dif_pos hpos]
    refine ends_offset hfit (ends_offset hparent (.record ?_))
    rw [elementAt_mul hes, elementAt_mul hes, parent]
    split
    · exact .pure ⟨rfl, (Charge.less hslots).mono (by omega) (by omega)⟩
    · refine .record ?_
      rw [swp_mul hes]
      refine (ih _ hlt { heap with data := heap.data ∘ Equiv.swap ((pos - 1) / 2) pos } hparent
        (by dsimp only; omega)).mono ?_
      rintro _ calls ⟨rfl, hrest⟩
      refine ⟨rfl, ?_⟩
      exact ((Charge.less hslots).append ((Charge.swp hslots).append hrest)).mono (by omega) (by omega)

end Up
end CommonProject.Heap

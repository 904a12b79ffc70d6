import CommonProject.Heap.Sift

/-! The operations of `min_heap.c` on heaps whose positions and offsets are in the range of `int`: what
they make of the array, and what they call. -/
namespace CommonProject.Heap
open Foundations Foundations.ImplicitHeap
variable {α : Type}

/-- How large the heap may be. -/
def Fits (nr size elemSize : Int) : HeapOp α → Prop
  | .push _ => nr < size → nr * elemSize ≤ 2147483647
  | .pop => 0 < nr → nr - 1 ≤ 1073741824 ∧ (nr - 1) * elemSize ≤ 2147483647
  | .popPush _ => 0 < size ∧ nr ≤ 1073741824 ∧ (nr - 1) * elemSize ≤ 2147483647
  | .heapifyAll => nr ≤ 1073741824 ∧ (nr - 1) * elemSize ≤ 2147483647

instance (nr size elemSize : Int) : (op : HeapOp α) → Decidable (Fits nr size elemSize op)
  | .push _ => inferInstanceAs (Decidable (_ → _))
  | .pop => inferInstanceAs (Decidable (_ → _ ∧ _))
  | .popPush _ => inferInstanceAs (Decidable (_ ∧ _ ∧ _))
  | .heapifyAll => inferInstanceAs (Decidable (_ ∧ _))

def countAfter (size : Int) (n : Nat) : HeapOp α → Nat
  | .push _ => if (n : Int) < size then n + 1 else n
  | .pop => n - 1
  | _ => n

def dataAfter (less : α → α → Bool) (size : Int) (d : Nat → α) (n : Nat) : HeapOp α → Nat → α
  | .push element => if (n : Int) < size then siftUp less (Function.update d n element) n else d
  | .pop => if 0 < n then siftDown less (n - 1) (Function.update d 0 (d (n - 1))) 0 else d
  | .popPush element => siftDown less n (Function.update d 0 element) 0
  | .heapifyAll => siftAll less n d (n / 2)

def testsAllowed (n : Nat) : HeapOp α → Nat
  | .push _ => Nat.log 2 n
  | .pop => 2 * Nat.log 2 n
  | .popPush _ => 2 * Nat.log 2 n
  | .heapifyAll => 2 * (n - 1)

def swapsAllowed (n : Nat) : HeapOp α → Nat
  | .heapifyAll => n - 1
  | _ => Nat.log 2 n

structure Performs (func : MinHeapCallbacks α) (heap : MinHeap α) (op : HeapOp α) (heap' : MinHeap α)
    (calls : List Call) : Prop where
  data : heap'.data = dataAfter func.less heap.size heap.data heap.count op
  nr : (heap'.nr : Int) = countAfter heap.size heap.count op
  size : heap'.size = heap.size
  charge : Charge func.elemSize heap'.nr heap.size calls (testsAllowed heap'.count op)
    (swapsAllowed heap'.count op)

variable {func : MinHeapCallbacks α} {heap : MinHeap α}

theorem siftFits_of {nr es : Int} {pos : Nat} (hes : 1 ≤ es) (hnr : nr ≤ 1073741824)
    (hoff : (nr - 1) * es ≤ 2147483647) (hpos : InInt (pos * 2 + 1 : Nat)) : SiftFits nr es pos := by
  refine ⟨hpos, fun g _ hg => ⟨⟨by omega, by omega⟩, fun _ => inInt_of_le hes ?_⟩⟩
  exact (Int.mul_le_mul_of_nonneg_right (by omega) (by omega)).trans hoff

private theorem slotOffset_zero {es n : Int} (h : 0 < n) : SlotOffset es n 0 :=
  ⟨0, le_rfl, h, (Int.zero_mul _).symm⟩

/-- A full heap refuses the element and keeps every slot. -/
theorem minHeapPush_full (func : MinHeapCallbacks α) (hn : (heap.size : Int) ≤ heap.nr) (x : α) :
    minHeapPush func heap x = pure (heap, some "Pushing on a full heap") := if_pos hn

/-- An empty heap gives nothing and keeps every slot. -/
theorem minHeapPop_empty (func : MinHeapCallbacks α) (hn : (heap.nr : Int) ≤ 0) :
    minHeapPop func heap = pure (heap, some "Popping an empty heap") := if_pos hn

section Specs
variable (hes : 1 ≤ (func.elemSize : Int)) (h0 : 0 ≤ (heap.nr : Int))
include hes h0

theorem minHeapPush_spec (hn : (heap.nr : Int) < heap.size) (x : α)
    (hfit : (heap.nr : Int) * func.elemSize ≤ 2147483647) :
    Ends (minHeapPush func heap x) fun r calls =>
      r.2 = none ∧ Performs func heap (.push x) r.1 calls := by
  have hcount := MinHeap.count_eq h0
  have hmax := heap.size.2.2
  have hnr : InInt (heap.nr + 1) := ⟨by omega, by omega⟩
  have hin : InInt ((heap.count : Int) * func.elemSize) := inInt_of_le hes (hcount ▸ hfit)
  have hpush : (heap.count : Int) < heap.size := by omega
  have hlog : Nat.log 2 ((heap.nr : Int) + 1).toNat = depth heap.count := by
    rw [depth, MinHeap.count, Int.toNat_add h0 Int.one_nonneg]
    rfl
  let pushed : MinHeap α := ⟨Function.update heap.data heap.count x, ⟨heap.nr + 1, hnr⟩, heap.size⟩
  rw [minHeapPush, if_neg (not_le.mpr hn), ← hcount]
  refine ends_offset hin (.record ?_)
  rw [copyTo_mul hes]
  refine .compute hnr ?_
  refine (minHeapPushLoop_spec hes pushed heap.count hin (by simp only [pushed]; omega)).bind ?_
  rintro _ calls ⟨rfl, hc⟩
  refine .pure ⟨rfl, ?_, ?_, rfl, ?_⟩
  · rw [dataAfter, if_pos hpush]
  · rw [countAfter, if_pos hpush]
    simp only [pushed]
    omega
  · have hcopy : SlotOffset func.elemSize heap.size ((heap.count : Int) * func.elemSize) :=
      ⟨heap.count, by omega, hpush, rfl⟩
    rw [List.append_nil]
    refine ((Charge.memcpy _ hcopy fun _ h => absurd h (Option.not_mem_none _)).append hc).mono ?_ ?_
    · exact (Nat.zero_add _).le.trans hlog.ge
    · exact (Nat.zero_add _).le.trans hlog.ge

theorem minHeapPop_spec (hs : (heap.nr : Int) ≤ heap.size) (hn : 0 < (heap.nr : Int))
    (hnr : (heap.nr : Int) - 1 ≤ 1073741824) (hoff : ((heap.nr : Int) - 1) * func.elemSize ≤ 2147483647) :
    Ends (minHeapPop func heap) fun r calls =>
      r.2 = none ∧ Performs func heap .pop r.1 calls := by
  have hcount := MinHeap.count_eq h0
  have hmax := heap.size.2.2
  have hnr' : InInt (heap.nr - 1) := ⟨by omega, by omega⟩
  have hlast : (heap.nr : Int) - 1 = (heap.count - 1 : Nat) := by omega
  have hpointer : ((heap.nr : Int) - 1) * func.elemSize = (heap.count - 1 : Nat) * func.elemSize := by
    rw [hlast]
  have hin : InInt (((heap.nr : Int) - 1) * func.elemSize) := by
    rw [hpointer]
    exact inInt_of_le hes (hpointer ▸ hoff)
  have hpop : 0 < heap.count := by omega
  let popped : MinHeap α :=
    ⟨Function.update heap.data 0 (heap.data (heap.count - 1)), ⟨heap.nr - 1, hnr'⟩, heap.size⟩
  have hless : ((heap.nr : Int) - 1 - 1) * func.elemSize ≤ 2147483647 :=
    (Int.mul_le_mul_of_nonneg_right (by omega) (by omega)).trans hoff
  rw [minHeapPop, if_neg (not_le.mpr hn)]
  refine .compute hnr' (ends_offset hin (.record ?_))
  rw [hpointer, elementAt_mul hes, copyTo_zero]
  refine (minHeapify_spec hes popped 0 (siftFits_of hes hnr hless (by decide))).bind ?_
  have hfewer : popped.count = heap.count - 1 := by
    simp only [MinHeap.count, popped]
    omega
  rw [hfewer, levels_root]
  rintro _ calls ⟨rfl, hc, -⟩
  refine .pure ⟨rfl, ?_, ?_, rfl, ?_⟩
  · rw [dataAfter, if_pos hpop]
  · exact hlast
  · have hcopy : ∀ o ∈ some ((heap.count - 1 : Nat) * func.elemSize : Int),
        SlotOffset func.elemSize heap.size o := by
      rintro o ⟨⟩
      exact ⟨_, Int.natCast_nonneg _, by omega, rfl⟩
    have hc' := (Charge.memcpy popped.nr (slotOffset_zero (by omega)) hcopy).append hc
    rw [Nat.zero_add, Nat.zero_add] at hc'
    change Charge _ popped.nr _ _ (2 * Nat.log 2 popped.count) (Nat.log 2 popped.count)
    rw [hfewer, List.append_nil]
    exact hc'

theorem minHeapPopPush_spec (x : α) (hsize : 0 < (heap.size : Int))
    (hnr : (heap.nr : Int) ≤ 1073741824) (hoff : ((heap.nr : Int) - 1) * func.elemSize ≤ 2147483647) :
    Ends (minHeapPopPush func heap x) (Performs func heap (.popPush x)) := by
  rw [minHeapPopPush, copyTo_zero]
  refine .record ?_
  refine (minHeapify_spec hes { heap with data := Function.update heap.data 0 x } 0
    (siftFits_of hes hnr hoff (by decide))).mono ?_
  rintro _ calls ⟨rfl, hc, -⟩
  rw [levels_root] at hc
  refine ⟨rfl, (MinHeap.count_eq h0).symm, rfl, ?_⟩
  have hc' := (Charge.memcpy heap.nr (slotOffset_zero hsize)
    fun _ h => absurd h (Option.not_mem_none _)).append hc
  rw [Nat.zero_add, Nat.zero_add] at hc'
  exact hc'

private theorem minHeapifyAll_spec (hnr : (heap.nr : Int) ≤ 1073741824)
    (hoff : ((heap.nr : Int) - 1) * func.elemSize ≤ 2147483647) :
    Ends (minHeapifyAll func heap) (Performs func heap .heapifyAll) := by
  have hcount := MinHeap.count_eq h0
  have hhalf : ((heap.nr : Int) / 2).toNat = heap.count / 2 := by omega
  rw [minHeapifyAll, hhalf]
  refine (minHeapifyFrom_spec hes heap _ fun j hj =>
    siftFits_of hes hnr hoff ⟨by omega, by omega⟩).mono ?_
  rintro _ calls ⟨rfl, hc⟩
  have hsum := sum_levels_le heap.count (heap.count / 2 + 1)
  exact ⟨rfl, hcount.symm, rfl, hc.mono (Nat.mul_le_mul_left 2 hsum) hsum⟩

/-- Within these bounds the code does what it would do on unbounded numbers. -/
theorem exec_spec (hs : (heap.nr : Int) ≤ heap.size) (op : HeapOp α)
    (hfit : Fits heap.nr heap.size func.elemSize op) :
    Ends (exec func heap op) (Performs func heap op) := by
  have hcount := MinHeap.count_eq h0
  have hnone : ∀ t s, Charge func.elemSize heap.nr heap.size [] t s := fun t s =>
    (Charge.nil _ _ _).mono (Nat.zero_le t) (Nat.zero_le s)
  cases op with
  | push x =>
    rw [exec]
    by_cases hn : (heap.nr : Int) < heap.size
    · refine (minHeapPush_spec hes h0 hn x (hfit hn)).bind fun r calls hr => .pure ?_
      rw [List.append_nil]
      exact hr.2
    · have hfull : ¬ (heap.count : Int) < heap.size := by omega
      rw [minHeapPush_full func (not_lt.mp hn), pure_bind]
      refine .pure ⟨?_, ?_, rfl, hnone _ _⟩
      · rw [dataAfter, if_neg hfull]
      · rw [countAfter, if_neg hfull, hcount]
  | pop =>
    rw [exec]
    by_cases hn : 0 < (heap.nr : Int)
    · obtain ⟨hnr, hoff⟩ := hfit hn
      refine (minHeapPop_spec hes h0 hs hn hnr hoff).bind fun r calls hr => .pure ?_
      rw [List.append_nil]
      exact hr.2
    · have hempty : ¬ 0 < heap.count := by omega
      rw [minHeapPop_empty func (not_lt.mp hn), pure_bind]
      refine .pure ⟨?_, ?_, rfl, hnone _ _⟩
      · rw [dataAfter, if_neg hempty]
      · rw [countAfter]
        dsimp only
        omega
  | popPush x => exact minHeapPopPush_spec hes h0 x hfit.1 hfit.2.1 hfit.2.2
  | heapifyAll => exact minHeapifyAll_spec hes h0 hfit.1 hfit.2

end Specs

section After
variable {ord : StrictWeakOrder α} {heap' : MinHeap α} {op : HeapOp α} {calls : List Call} {x : α}
  {n : Nat} {size : Int} {d : Nat → α}

theorem Performs.count (h : Performs func heap op heap' calls) :
    heap'.count = countAfter heap.size heap.count op := by
  rw [MinHeap.count, h.nr, Int.toNat_natCast]

def HeapOp.isPush : HeapOp α → Bool
  | .push _ => true
  | _ => false

/-- An operation stays within the capacity and makes room for one element at most. -/
theorem countAfter_le (op : HeapOp α) (h : (n : Int) ≤ size) :
    (countAfter size n op : Int) ≤ size ∧ countAfter size n op ≤ n + if op.isPush then 1 else 0 := by
  cases op with
  | push x =>
    rw [countAfter]
    split
    · exact ⟨by omega, le_rfl⟩
    · exact ⟨h, Nat.le_succ n⟩
  | pop =>
    rw [countAfter]
    exact ⟨by omega, by omega⟩
  | _ => exact ⟨h, le_rfl⟩

theorem dataAfter_ordered (op : HeapOp α) (h : OrderedFrom ord d n 0) :
    OrderedFrom ord (dataAfter ord.less size d n op) (countAfter size n op) 0 := by
  cases op with
  | push x =>
    rw [dataAfter, countAfter]
    split
    · exact push_ordered h x
    · exact h
  | pop =>
    rw [dataAfter, countAfter]
    split
    · obtain ⟨m, rfl⟩ : ∃ m, n = m + 1 := ⟨n - 1, by omega⟩
      exact pop_ordered h
    · exact fun i hi hin hk => h i hi (by omega) hk
  | popPush x => exact replace_ordered h x
  | heapifyAll => exact siftAll_half_ordered ord d n

theorem slots_push (h : Performs func heap (.push x) heap' calls)
    (hn : (heap.count : Int) < heap.size) : slots heap' = x ::ₘ slots heap := by
  rw [slots, slots, h.count, h.data, dataAfter, countAfter, if_pos hn, if_pos hn]
  exact push_contents _ _ _ x

theorem slots_pop (h : Performs func heap .pop heap' calls) (hn : 0 < heap.count) :
    heap.data 0 ::ₘ slots heap' = slots heap := by
  obtain ⟨m, hm⟩ : ∃ m, heap.count = m + 1 := ⟨heap.count - 1, by omega⟩
  rw [slots, slots, h.count, h.data, dataAfter, countAfter, if_pos hn, hm]
  exact pop_contents _ _ m

theorem slots_popPush (h : Performs func heap (.popPush x) heap' calls) (hn : 0 < heap.count) :
    heap.data 0 ::ₘ slots heap' = x ::ₘ slots heap := by
  rw [slots, slots, h.count, h.data]
  exact replace_contents _ _ hn x

theorem slots_heapifyAll (h : Performs func heap .heapifyAll heap' calls) : slots heap' = slots heap := by
  rw [slots, slots, h.count, h.data]
  exact (siftAll_rearranged _ _ _ _).contents_eq

end After
end CommonProject.Heap

import CommonProject.Heap.Operations

/-! The heap is a bounded priority queue: its slots in use are the queue, as long as positions and
offsets are in the range of `int`. -/
namespace CommonProject.Heap
open Foundations Foundations.ImplicitHeap
variable {α : Type}

/-- A queue of at most `size` elements; `top` is the occurrence to be removed. -/
def queueStep [DecidableEq α] (size : Int) (top : α) (q : Multiset α) : HeapOp α → Multiset α
  | .push element => if (Multiset.card q : Int) < size then element ::ₘ q else q
  | .pop => q.erase top
  | .popPush element => element ::ₘ q.erase top
  | .heapifyAll => q

/-- Only the replacement of the first element needs one. -/
def Allowed (heap : MinHeap α) : HeapOp α → Prop
  | .popPush _ => 0 < (heap.nr : Int)
  | _ => True

def callbacks (ord : StrictWeakOrder α) (elemSize : CInt) : MinHeapCallbacks α := ⟨elemSize, ord.less⟩

variable (ord : StrictWeakOrder α) (elemSize : CInt)

/-- Runs of the heap beside the queue it stands for, where every operation meets the bounds. -/
inductive Reachable [DecidableEq α] : MinHeap α → Multiset α → Prop
  | empty (data : Nat → α) (nr size : CInt) : nr = (0 : Int) → 0 ≤ (size : Int) →
      Reachable ⟨data, nr, size⟩ 0
  | heapified {heap heap' : MinHeap α} {calls : List Call} : 0 ≤ (heap.nr : Int) →
      (heap.nr : Int) ≤ heap.size → Fits heap.nr heap.size elemSize (HeapOp.heapifyAll : HeapOp α) →
      (exec (callbacks ord elemSize) heap .heapifyAll).run [] = .ok (heap', calls) →
      Reachable heap' (slots heap)
  | step {heap heap' : MinHeap α} {q : Multiset α} {calls : List Call} (op : HeapOp α) :
      Reachable heap q → Allowed heap op → Fits heap.nr heap.size elemSize op →
      (exec (callbacks ord elemSize) heap op).run [] = .ok (heap', calls) →
      Reachable heap' (queueStep heap.size (heap.data 0) q op)

structure Valid (heap : MinHeap α) : Prop where
  nonneg : 0 ≤ (heap.nr : Int)
  bounded : (heap.nr : Int) ≤ heap.size
  ordered : OrderedFrom ord heap.data heap.count 0

variable {ord elemSize} {heap heap' : MinHeap α} {op : HeapOp α} {calls : List Call}

theorem card_slots (heap : MinHeap α) : Multiset.card (slots heap) = heap.count := card_contents _ _

theorem slots_eq_zero (h : heap.count = 0) : slots heap = 0 :=
  Multiset.card_eq_zero.mp ((card_slots heap).trans h)

private theorem Valid.fewer (h : Valid ord heap) : (heap.count : Int) ≤ heap.size :=
  (MinHeap.count_eq h.nonneg).le.trans h.bounded

private theorem performs_bounds (h : Performs (callbacks ord elemSize) heap op heap' calls)
    (hs : (heap.count : Int) ≤ heap.size) : 0 ≤ (heap'.nr : Int) ∧ (heap'.nr : Int) ≤ heap'.size := by
  rw [h.nr, h.size]
  exact ⟨Int.natCast_nonneg _, (countAfter_le op hs).1⟩

theorem Valid.performs (h : Valid ord heap)
    (hp : Performs (callbacks ord elemSize) heap op heap' calls) : Valid ord heap' := by
  obtain ⟨h0, hs⟩ := performs_bounds hp h.fewer
  refine ⟨h0, hs, ?_⟩
  rw [hp.count, hp.data]
  exact dataAfter_ordered op h.ordered

/-- Building a heap orders any contents. -/
theorem valid_heapified (hs : (heap.count : Int) ≤ heap.size)
    (hp : Performs (callbacks ord elemSize) heap .heapifyAll heap' calls) : Valid ord heap' := by
  obtain ⟨h0, hs'⟩ := performs_bounds hp hs
  refine ⟨h0, hs', ?_⟩
  rw [hp.count, hp.data]
  exact siftAll_half_ordered ord heap.data heap.count

/-- One operation follows the queue. -/
private theorem Performs.queue [DecidableEq α]
    (hp : Performs (callbacks ord elemSize) heap op heap' calls)
    (h : Valid ord heap) (ha : Allowed heap op) :
    slots heap' = queueStep heap.size (heap.data 0) (slots heap) op := by
  have hc := MinHeap.count_eq h.nonneg
  cases op with
  | push x =>
    rw [queueStep, card_slots]
    split
    · exact slots_push hp ‹_›
    · rw [slots, hp.count, hp.data, dataAfter, countAfter, if_neg ‹_›, if_neg ‹_›]
      rfl
  | pop =>
    rw [queueStep]
    rcases Nat.eq_zero_or_pos heap.count with hz | hn
    · have hz' : heap'.count = 0 := by rw [hp.count, countAfter, hz]
      rw [slots_eq_zero hz, slots_eq_zero hz', Multiset.erase_zero]
    · rw [← slots_pop hp hn, Multiset.erase_cons_head]
  | popPush x =>
    have hn : 0 < heap.count := MinHeap.lt_count.mpr ha
    have hm : heap.data 0 ∈ slots heap := Multiset.mem_map_of_mem _ (Multiset.mem_range.mpr hn)
    refine (Multiset.cons_inj_right (heap.data 0)).mp ?_
    rw [queueStep, slots_popPush hp hn, Multiset.cons_swap, Multiset.cons_erase hm]
  | heapifyAll => exact slots_heapifyAll hp

theorem exec_performs (ord : StrictWeakOrder α) (op : HeapOp α) (hes : 1 ≤ (elemSize : Int))
    (h0 : 0 ≤ (heap.nr : Int)) (hs : (heap.nr : Int) ≤ heap.size)
    (hfit : Fits heap.nr heap.size elemSize op) :
    Ends (exec (callbacks ord elemSize) heap op) (Performs (callbacks ord elemSize) heap op) :=
  exec_spec hes h0 hs op hfit

private theorem reachable_valid [DecidableEq α] (hes : 1 ≤ (elemSize : Int)) {q : Multiset α}
    (hr : Reachable ord elemSize heap q) : Valid ord heap ∧ slots heap = q := by
  induction hr with
  | empty data nr size hnr hs =>
    have hz : MinHeap.count ⟨data, nr, size⟩ = 0 := by
      rw [MinHeap.count, hnr]
      rfl
    exact ⟨⟨hnr.ge, hnr.le.trans hs, fun i _ hi => absurd hi (by omega)⟩, slots_eq_zero hz⟩
  | heapified h0 hs hfit hrun =>
    have hp := (exec_performs ord _ hes h0 hs hfit).of_run hrun
    exact ⟨valid_heapified ((MinHeap.count_eq h0).le.trans hs) hp, slots_heapifyAll hp⟩
  | step op _ ha hfit hrun ih =>
    obtain ⟨hv, hq⟩ := ih
    have hp := (exec_performs ord _ hes hv.nonneg hv.bounded hfit).of_run hrun
    exact ⟨hv.performs hp, hq ▸ hp.queue hv ha⟩

/-- In every run whose operations meet the bounds, the slots in use are a heap within the capacity,
the first one holds a least element, and together they are the queue; a refused operation changes
nothing, and every operation that meets the bounds ends and follows the queue. -/
theorem min_heap_refines_queue [DecidableEq α] (hes : 1 ≤ (elemSize : Int)) {q : Multiset α}
    (hr : Reachable ord elemSize heap q) :
    (0 ≤ (heap.nr : Int) ∧ (heap.nr : Int) ≤ heap.size) ∧
    (∀ i : Nat, 0 < i → (i : Int) < heap.nr →
      ord.less (heap.data i) (heap.data ((i - 1) / 2)) = false) ∧
    (∀ i : Nat, (i : Int) < heap.nr → ord.less (heap.data i) (heap.data 0) = false) ∧
    slots heap = q ∧
    (∀ element, (heap.nr : Int) = heap.size →
      (exec (callbacks ord elemSize) heap (.push element)).run [] = .ok (heap, [])) ∧
    (heap.nr = (0 : Int) → (exec (callbacks ord elemSize) heap .pop).run [] = .ok (heap, [])) ∧
    ∀ op, Allowed heap op → Fits heap.nr heap.size elemSize op → ∃ heap' calls,
      (exec (callbacks ord elemSize) heap op).run [] = .ok (heap', calls) ∧
      heap'.size = heap.size ∧ slots heap' = queueStep heap.size (heap.data 0) q op := by
  obtain ⟨hv, rfl⟩ := reachable_valid hes hr
  refine ⟨⟨hv.nonneg, hv.bounded⟩, fun i hi hn => ?_, fun i hn => ?_, rfl, fun element hn => ?_,
    fun hn => ?_, fun op ha hfit => ?_⟩
  · exact hv.ordered i hi (MinHeap.lt_count.mpr hn) (Nat.zero_le _)
  · exact hv.ordered.root_least i (MinHeap.lt_count.mpr hn)
  · rw [exec, minHeapPush_full _ hn.ge]
    rfl
  · rw [exec, minHeapPop_empty _ hn.le]
    rfl
  · obtain ⟨heap', calls, hrun, hp⟩ := (exec_performs ord _ hes hv.nonneg hv.bounded hfit).run
    exact ⟨heap', calls, hrun, hp.size, hp.queue hv ha⟩

def intOrder : StrictWeakOrder Int where
  less a b := decide (a < b)
  irrefl a := by simp
  trans hab hbc := by simp only [decide_eq_true_eq] at *; omega
  tie_trans h1 h2 h3 h4 := by simp only [decide_eq_false_iff_not] at *; omega

/-- Three integers of four bytes out of order, built into a heap of capacity four. -/
theorem three_integers_heapified :
    let elemSize : CInt := .of 4
    let heap : MinHeap Int := ⟨fun i => 5 - i, .of 3, .of 4⟩
    ∃ heap' calls, (exec (callbacks intOrder elemSize) heap .heapifyAll).run [] = .ok (heap', calls) ∧
      slots heap' = {5, 4, 3} ∧
      ∀ i : Nat, (i : Int) < heap'.nr → intOrder.less (heap'.data i) (heap'.data 0) = false := by
  intro elemSize heap
  have h1 : 1 ≤ (elemSize : Int) := by decide
  have h0 : 0 ≤ (heap.nr : Int) := by decide
  have hs : (heap.nr : Int) ≤ heap.size := by decide
  have hfit : Fits heap.nr heap.size elemSize (.heapifyAll : HeapOp Int) := by decide
  obtain ⟨heap', calls, hrun, -⟩ := (exec_performs intOrder _ h1 h0 hs hfit).run
  obtain ⟨-, -, hl, hslots, -⟩ := min_heap_refines_queue h1 (.heapified h0 hs hfit hrun)
  exact ⟨heap', calls, hrun, hslots.trans (by decide), hl⟩

/-- Two elements of a gigabyte each are a heap of capacity three, to which the third cannot be
pushed. -/
theorem third_gigabyte_overflows :
    let elemSize : CInt := .of 1073741824
    let heap : MinHeap Int := ⟨fun i => i, .of 2, .of 3⟩
    ∃ heap' calls, (exec (callbacks intOrder elemSize) heap .heapifyAll).run [] = .ok (heap', calls) ∧
      Reachable intOrder elemSize heap' {0, 1} ∧ Allowed heap' (.push 5) ∧
      heap'.nr = (2 : Int) ∧ heap'.size = (3 : Int) ∧
      (exec (callbacks intOrder elemSize) heap' (.push 5)).run [] = .error .overflow := by
  intro elemSize heap
  have h1 : 1 ≤ (elemSize : Int) := by decide
  have h0 : 0 ≤ (heap.nr : Int) := by decide
  have hs : (heap.nr : Int) ≤ heap.size := by decide
  have hfit : Fits heap.nr heap.size elemSize (.heapifyAll : HeapOp Int) := by decide
  obtain ⟨heap', calls, hrun, hp⟩ := (exec_performs intOrder _ h1 h0 hs hfit).run
  have hr : Reachable intOrder elemSize heap' (slots heap) := .heapified h0 hs hfit hrun
  have hslots : slots heap = {0, 1} := by decide
  have hnr : heap'.nr = (2 : Int) := hp.nr
  have hsize : heap'.size = (3 : Int) := congrArg Subtype.val hp.size
  refine ⟨heap', calls, hrun, hslots ▸ hr, trivial, hnr, hsize, ?_⟩
  have hpush : Overflows (exec (callbacks intOrder elemSize) heap' (.push 5)) := by
    rw [exec, minHeapPush, if_neg (by omega)]
    refine (overflows_offset ?_).bind
    rw [hnr]
    decide
  exact hpush []

end CommonProject.Heap

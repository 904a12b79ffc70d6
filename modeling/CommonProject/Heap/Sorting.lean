import CommonProject.Heap.OffsetBounds

/-! Building a heap and emptying it sorts, as far as the range of `int` allows. -/
namespace CommonProject.Heap
open Foundations Foundations.ImplicitHeap
variable {α : Type}

/-- Read the first slot and pop it while there is one, at most `k` times: what was read, and the heap
at the end. -/
def drain (func : MinHeapCallbacks α) : Nat → MinHeap α → HeapProg (List α × MinHeap α)
  | 0, heap => return ([], heap)
  | k + 1, heap => do
    if (heap.nr : Int) > 0 then
      let (heap', _) ← minHeapPop func heap
      let (rest, empty) ← drain func k heap'
      return (heap.data 0 :: rest, empty)
    else return ([], heap)

def pushAll (func : MinHeapCallbacks α) : List α → MinHeap α → HeapProg (MinHeap α)
  | [], heap => return heap
  | element :: elements, heap => do
    let (heap, _) ← minHeapPush func heap element
    pushAll func elements heap

variable {ord : StrictWeakOrder α} {elemSize : CInt} {heap : MinHeap α}

structure Drained (ord : StrictWeakOrder α) (heap : MinHeap α) (r : List α × MinHeap α) : Prop where
  perm : (r.1 : Multiset α) = slots heap
  ascending : ord.Ascending r.1
  empty : r.2.nr = (0 : Int)

/-- The first slot is least of all that are in use. -/
private theorem least_of_mem_slots (ho : OrderedFrom ord heap.data heap.count 0) {x : α}
    (hx : x ∈ slots heap) : ord.less x (heap.data 0) = false := by
  rw [slots, contents] at hx
  obtain ⟨i, hi, rfl⟩ := Multiset.mem_map.mp hx
  exact ho.root_least i (Multiset.mem_range.mp hi)

/-- Nothing is read from an empty heap. -/
private theorem drained_nil (h : Valid ord heap) (hn : ¬ 0 < (heap.nr : Int)) :
    Drained ord heap ([], heap) := by
  have hz : (heap.nr : Int) = 0 := le_antisymm (not_lt.mp hn) h.nonneg
  have hc : heap.count = 0 := by rw [MinHeap.count, hz]; rfl
  exact ⟨(slots_eq_zero hc).symm, List.Pairwise.nil, hz⟩

/-- A pop needs no more room than the first one. -/
theorem pop_fits {nr es : Int} (hes : 1 ≤ es) (hnr : nr ≤ 1073741824)
    (hoff : (nr - 1) * es ≤ 2147483647) : nr - 1 ≤ 1073741824 ∧ (nr - 1 - 1) * es ≤ 2147483647 :=
  ⟨by omega, (Int.mul_le_mul_of_nonneg_right (by omega) (by omega)).trans hoff⟩

/-- The first element before the others in ascending order. -/
theorem ascending_cons {heap' : MinHeap α} {calls : List Call} {rest : List α} (h : Valid ord heap)
    (hp : Performs (callbacks ord elemSize) heap .pop heap' calls) (hn : 0 < heap.count)
    (hperm : (rest : Multiset α) = slots heap') (hasc : ord.Ascending rest) :
    ((heap.data 0 :: rest : List α) : Multiset α) = slots heap ∧
      ord.Ascending (heap.data 0 :: rest) := by
  have hs := slots_pop hp hn
  rw [← hperm, Multiset.cons_coe] at hs
  refine ⟨hs, List.pairwise_cons.mpr ⟨fun x hx => ?_, hasc⟩⟩
  apply least_of_mem_slots h.ordered
  rw [← hs]
  exact Multiset.mem_coe.mpr (List.mem_cons_of_mem _ hx)

theorem drain_spec (hes : 1 ≤ (elemSize : Int)) (h : Valid ord heap)
    (hnr : (heap.nr : Int) ≤ 1073741824) (hoff : ((heap.nr : Int) - 1) * elemSize ≤ 2147483647)
    (k : Nat) (hk : heap.count ≤ k) :
    Ends (drain (callbacks ord elemSize) k heap) fun r _ => Drained ord heap r := by
  induction k generalizing heap with
  | zero =>
    have hc := MinHeap.count_eq h.nonneg
    exact .pure (drained_nil h (by omega))
  | succ k ih =>
    have hc := MinHeap.count_eq h.nonneg
    rw [drain]
    by_cases hn : 0 < (heap.nr : Int)
    · rw [if_pos hn]
      refine (minHeapPop_spec hes h.nonneg h.bounded hn (by omega) hoff).bind ?_
      rintro ⟨heap', _⟩ calls ⟨-, (hp : Performs _ heap .pop heap' calls)⟩
      have hpop : heap'.count = heap.count - 1 := hp.count
      have heq : (heap'.nr : Int) = heap.nr - 1 := by
        rw [hp.nr, countAfter]
        omega
      have hfits := pop_fits hes hnr hoff
      refine (ih (h.performs hp) (heq ▸ hfits.1) (heq ▸ hfits.2) (by omega)).bind ?_
      rintro ⟨rest, empty⟩ _ ⟨hperm, hasc, hend⟩
      obtain ⟨hperm', hasc'⟩ := ascending_cons h hp (by omega) hperm hasc
      exact .pure ⟨hperm', hasc', hend⟩
    · rw [if_neg hn]
      exact .pure (drained_nil h hn)

private theorem pushAll_spec (hes : 1 ≤ (elemSize : Int)) (elements : List α) (h : Valid ord heap)
    (hn : (heap.nr : Int) + elements.length ≤ heap.size)
    (hoff : ((heap.nr : Int) + elements.length - 1) * elemSize ≤ 2147483647) :
    Ends (pushAll (callbacks ord elemSize) elements heap) fun heap' _ =>
      Valid ord heap' ∧ slots heap' = (elements : Multiset α) + slots heap := by
  induction elements generalizing heap with
  | nil => exact .pure ⟨h, (Multiset.zero_add _).symm⟩
  | cons x elements ih =>
    rw [List.length_cons] at hn hoff
    have hc := MinHeap.count_eq h.nonneg
    have hfirst : (heap.nr : Int) * elemSize ≤ 2147483647 :=
      (Int.mul_le_mul_of_nonneg_right (by omega) (by omega)).trans hoff
    refine (minHeapPush_spec hes h.nonneg (by omega) x hfirst).bind ?_
    rintro ⟨heap', _⟩ calls ⟨-, (hp : Performs _ heap (.push x) heap' calls)⟩
    have hnr : (heap'.nr : Int) = heap.nr + 1 := by
      rw [hp.nr, countAfter, if_pos (by omega)]
      omega
    have heq : (heap'.nr : Int) + elements.length = heap.nr + (elements.length + 1 : Nat) := by omega
    have hsize : (heap'.size : Int) = heap.size := congrArg Subtype.val hp.size
    refine (ih (h.performs hp) (by omega) (heq ▸ hoff)).mono ?_
    rintro _ _ ⟨hv, hs⟩
    refine ⟨hv, hs.trans ?_⟩
    rw [slots_push hp (by omega), ← Multiset.cons_coe, Multiset.add_cons, Multiset.cons_add]

/-- Any array of `nr` elements is built into a heap of the same elements, which is emptied in ascending
order; where the order is total, pushing the elements in any order into an empty heap of sufficient
size comes to the same. -/
def Sorts (nr size elemSize : CInt) : Prop :=
  ∀ (α : Type) (ord : StrictWeakOrder α) (data : Nat → α),
    let func := callbacks ord elemSize
    let heap : MinHeap α := ⟨data, nr, size⟩
    ∃ built calls, (minHeapifyAll func heap).run [] = .ok (built, calls) ∧
      (built.nr = nr ∧ slots built = slots heap ∧ (∀ i : Nat, (nr : Int) ≤ i → built.data i = data i) ∧
        ∀ i : Nat, 0 < i → (i : Int) < nr →
          ord.less (built.data i) (built.data ((i - 1) / 2)) = false) ∧
      ∀ k, heap.count ≤ k → ∃ sorted empty calls,
        (drain func k built).run [] = .ok ((sorted, empty), calls) ∧
        (sorted : Multiset α) = slots heap ∧ ord.Ascending sorted ∧ empty.nr = (0 : Int) ∧
        (ord.Total → ∀ (data' : Nat → α) (nr' size' : CInt) (elements : List α), nr' = (0 : Int) →
          (elements : Multiset α) = slots heap → (nr : Int) ≤ size' →
          ∃ pushed calls, (pushAll func elements ⟨data', nr', size'⟩).run [] = .ok (pushed, calls) ∧
            ∃ empty' calls', (drain func k pushed).run [] = .ok ((sorted, empty'), calls'))

/-- Elements pushed into an empty heap are read as any other heap of them is. -/
private theorem pushed_sorted {nr' size' : CInt} (hes : 1 ≤ (elemSize : Int)) (ht : ord.Total)
    (hnr : (heap.count : Int) ≤ 1073741824) (hoff : ((heap.count : Int) - 1) * elemSize ≤ 2147483647)
    {sorted : List α} (hperm : (sorted : Multiset α) = slots heap) (hasc : ord.Ascending sorted)
    (data' : Nat → α) (hnr' : nr' = (0 : Int)) {elements : List α}
    (helements : (elements : Multiset α) = slots heap) (hsize : (heap.count : Int) ≤ size')
    {k : Nat} (hk : heap.count ≤ k) :
    ∃ pushed calls,
      (pushAll (callbacks ord elemSize) elements ⟨data', nr', size'⟩).run [] = .ok (pushed, calls) ∧
      ∃ empty' calls',
        (drain (callbacks ord elemSize) k pushed).run [] = .ok ((sorted, empty'), calls') := by
  have hlen : elements.length = heap.count := by
    rw [← Multiset.coe_card, helements, card_slots]
  have hz : MinHeap.count ⟨data', nr', size'⟩ = 0 := by
    rw [MinHeap.count, hnr']
    rfl
  have hempty : Valid ord ⟨data', nr', size'⟩ :=
    ⟨hnr'.ge, by dsimp only; omega, fun i _ hi => absurd hi (by omega)⟩
  obtain ⟨pushed, calls, hrun, hv, hs⟩ := (pushAll_spec hes elements hempty (by dsimp only; omega)
    (by rw [hnr', Int.zero_add, hlen]; exact hoff)).run
  have hslots : slots pushed = slots heap := by
    rw [hs, helements, slots_eq_zero hz, Multiset.add_zero]
  have hcount : pushed.count = heap.count := by
    rw [← card_slots, hslots, card_slots]
  have hc := MinHeap.count_eq hv.nonneg
  have heq : (pushed.nr : Int) = heap.count := by omega
  obtain ⟨⟨sorted', empty'⟩, calls', hrun', hd⟩ :=
    (drain_spec hes hv (heq ▸ hnr) (heq ▸ hoff) k (hcount ▸ hk)).run
  have hsame : sorted' = sorted :=
    hd.ascending.eq_of_perm ht hasc (Multiset.coe_eq_coe.mp (hd.perm.trans (hslots.trans hperm.symm)))
  exact ⟨pushed, calls, hrun, empty', calls', hsame ▸ hrun'⟩

/-- The arrays of one length can be sorted if and only if the last position that a sift can reach and the
last offset are in the range of `int`. -/
theorem heapify_and_drain_sorts_iff (nr size elemSize : CInt) (h0 : 0 ≤ (nr : Int))
    (hs : (nr : Int) ≤ size) (helem : 1 ≤ (elemSize : Int)) :
    Sorts nr size elemSize ↔
      (nr : Int) ≤ 1073741824 ∧ ((nr : Int) - 1) * elemSize ≤ 2147483647 := by
  constructor
  · intro h
    by_contra hover
    obtain ⟨data, hx⟩ := overflows_minHeapifyAll size helem hover
    obtain ⟨built, calls, hrun, -⟩ := h Bool trueFirst data
    exact hx.not_run hrun
  · rintro ⟨hnr, hoff⟩ α ord data func heap
    have hc : (heap.count : Int) = nr := MinHeap.count_eq h0
    have hfit : Fits heap.nr heap.size elemSize (.heapifyAll : HeapOp α) := ⟨hnr, hoff⟩
    obtain ⟨built, calls, hrun, hp⟩ := (exec_performs ord _ helem h0 hs hfit).run
    have hv : Valid ord built := valid_heapified (hc.le.trans hs) hp
    have hslots : slots built = slots heap := slots_heapifyAll hp
    have hcount : built.count = heap.count := hp.count
    have heq : (built.nr : Int) = nr := hp.nr.trans hc
    refine ⟨built, calls, hrun, ⟨Subtype.ext heq, hslots, fun i hi => ?_, fun i hi hin => ?_⟩,
      fun k hk => ?_⟩
    · rw [hp.data]
      exact (siftAll_rearranged _ _ _ _).eq_outside fun hx => by omega
    · exact hv.ordered i hi (by omega) (Nat.zero_le _)
    · obtain ⟨⟨sorted, empty⟩, calls', hrun', hperm, hasc, hend⟩ :=
        (drain_spec helem hv (heq ▸ hnr) (heq ▸ hoff) k (hcount ▸ hk)).run
      refine ⟨sorted, empty, calls', hrun', hperm.trans hslots, hasc, hend, ?_⟩
      intro ht data' nr' size' elements hnr' helements hsize
      exact pushed_sorted helem ht (hc ▸ hnr) (hc ▸ hoff) (hperm.trans hslots) hasc data' hnr'
        helements (hc ▸ hsize) hk

/-- Four integers of four bytes, sorted by building a heap and by pushing them in another order. -/
theorem integers_sorted_both_ways :
    let func := callbacks intOrder (.of 4)
    let heap : MinHeap Int := ⟨fun i => 3 - i, .of 4, .of 4⟩
    let none : MinHeap Int := ⟨fun _ => 7, .of 0, .of 5⟩
    ∃ built calls, (minHeapifyAll func heap).run [] = .ok (built, calls) ∧
      (∃ empty calls, (drain func 4 built).run [] = .ok (([0, 1, 2, 3], empty), calls)) ∧
      ∃ pushed calls, (pushAll func [2, 0, 3, 1] none).run [] = .ok (pushed, calls) ∧
        ∃ empty calls, (drain func 4 pushed).run [] = .ok (([0, 1, 2, 3], empty), calls) := by
  intro func heap none
  have htotal : intOrder.Total := fun a b hab hba => by
    simp only [intOrder, decide_eq_false_iff_not] at hab hba
    omega
  obtain ⟨built, calls, hrun, -, hall⟩ := (heapify_and_drain_sorts_iff heap.nr heap.size func.elemSize
    (by decide) (by decide) (by decide)).mpr (by decide) Int intOrder heap.data
  obtain ⟨sorted, empty, calls', hdrain, hperm, hasc, -, hboth⟩ := hall 4 (by decide)
  obtain rfl : sorted = [0, 1, 2, 3] :=
    hasc.eq_of_perm htotal (by unfold StrictWeakOrder.Ascending; decide)
      (Multiset.coe_eq_coe.mp (hperm.trans (by decide)))
  exact ⟨built, calls, hrun, ⟨empty, calls', hdrain⟩,
    hboth htotal none.data none.nr none.size [2, 0, 3, 1] rfl (by decide) (by decide)⟩

/-- Of three elements of a gigabyte each, the last one cannot be compared. -/
theorem three_gigabytes_not_sorted :
    (minHeapifyAll (callbacks intOrder (.of 1073741824))
      ⟨fun i => 3 - i, .of 3, .of 3⟩).run [] = .error .overflow ∧
    ¬ Sorts (.of 3) (.of 3) (.of 1073741824) := by
  let func := callbacks intOrder (.of 1073741824)
  let heap : MinHeap Int := ⟨fun i => 3 - i, .of 3, .of 3⟩
  have hfirst : Ends (minHeapify func heap 1) fun heap' _ => heap' = heap :=
    leaf_turn func (by decide) (by decide)
  have hx : Overflows (minHeapifyAll func heap) := by
    refine hfirst.overflows ?_
    rintro _ _ rfl
    exact overflows_root (by decide) (by decide) (by decide)
  refine ⟨hx [], fun h => ?_⟩
  obtain ⟨built, calls, hrun, -⟩ := h Int intOrder heap.data
  exact hx.not_run hrun

end CommonProject.Heap

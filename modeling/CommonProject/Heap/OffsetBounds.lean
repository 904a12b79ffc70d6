import CommonProject.Heap.Queue

/-! How large a heap may be before its positions or offsets leave the range of `int`: beyond the bounds,
there are contents on which an operation computes too large a number. -/
namespace CommonProject.Heap
open Foundations Foundations.ImplicitHeap
variable {α : Type} {pos g : Nat}

def trueFirst : StrictWeakOrder Bool where
  less a b := a && !b
  irrefl := by decide
  trans := by decide
  tie_trans := by decide

section Way
variable {heap : MinHeap Bool}

/-- A `false` sinks where the way is paved with `true`. -/
private theorem leastOf_trueFirst {n c : Nat} {d : Nat → Bool} (hc0 : 0 < c) (hcp : parent c = pos)
    (hcn : c < n) (hpos : d pos = false) (hc : d c = true)
    (hk : ∀ k : Nat, 0 < k → parent k = pos → k < n → k ≠ c → d k = false) :
    leastOf trueFirst.less n d pos = c := by
  rcases (parent_eq_iff hc0).mp hcp with rfl | rfl
  · have hright := hk (pos * 2 + 2) (by omega) ((parent_eq_iff (by omega)).mpr (.inr rfl))
    simp only [leastOf, trueFirst, hc, hpos, Bool.not_false, Bool.and_self, if_true]
    split
    · rw [hright ‹_› (by omega)]
      rfl
    · rfl
  · have hleft := hk (pos * 2 + 1) (by omega) ((parent_eq_iff (by omega)).mpr (.inl rfl)) (by omega)
      (by omega)
    simp only [leastOf, trueFirst, hleft, hc, hpos, hcn, Bool.false_and, Bool.not_false,
      Bool.and_self, Bool.false_eq_true, if_false, if_true]

/-- The contents that lead a sift from `pos` down to `g`. -/
structure LeadsTo (heap : MinHeap Bool) (pos g : Nat) : Prop where
  below : Below pos g
  inUse : g < heap.count
  start : heap.data pos = false
  way : ∀ i : Nat, Below pos i → i ≠ pos → i < heap.count → (heap.data i = true ↔ Below i g)

private theorem LeadsTo.step (h : LeadsTo heap pos g) (hne : g ≠ pos) :
    ∃ c : Nat, 0 < c ∧ parent c = pos ∧ c ≤ g ∧
      leastOf trueFirst.less heap.count heap.data pos = c ∧
      LeadsTo { heap with data := heap.data ∘ Equiv.swap c pos } c g := by
  obtain ⟨c, hc0, hcp, hcb⟩ := h.below.exists_child hne
  have hlt := parent_lt hc0
  have hle := hcb.le
  have hin := h.inUse
  refine ⟨c, hc0, hcp, hle, ?_, hcb, h.inUse, ?_, fun i hi hne' hin' => ?_⟩
  · apply leastOf_trueFirst hc0 hcp (by omega) h.start
    · exact (h.way c (below_child hc0 hcp) (by omega) (by omega)).mpr hcb
    · intro k hk hkp hkn hkc
      have hklt := parent_lt hk
      refine Bool.eq_false_of_not_eq_true fun hkt => hkc ?_
      have hkb := (h.way k (below_child hk hkp) (by omega) hkn).mp hkt
      exact hkb.child_unique hcb hk hc0 (hkp.trans hcp.symm)
  · simp [h.start]
  · have hci := hi.le
    dsimp only
    rw [Function.comp_apply, Equiv.swap_apply_of_ne_of_ne hne' (by omega)]
    exact h.way i ((below_child hc0 hcp).trans hi) (by omega) hin'

end Way

/-- A turn computes the offsets of the children in use. -/
private theorem overflows_smallestOf {func : MinHeapCallbacks α} {heap : MinHeap α}
    (hes : 1 ≤ (func.elemSize : Int)) {c : Nat} (hc : 0 < c) (hp : parent c = pos)
    (hn : (c : Int) < heap.nr) (hover : ¬ InInt (c * func.elemSize)) :
    Overflows (smallestOf func heap pos) := by
  have hmax := heap.nr.2.2
  by_cases hleft : InInt ((pos * 2 + 1 : Nat) * func.elemSize)
  · obtain rfl : c = pos * 2 + 2 := by
      refine ((parent_eq_iff hc).mp hp).resolve_left fun h => hover ?_
      rwa [h]
    refine overflows_after_offset hleft (overflows_after_offset (inInt_mul hes (by omega) hleft) ?_)
    refine (lesser_spec hes heap (pos * 2 + 1) pos).overflows fun _ _ _ => ?_
    refine .after_compute ⟨by omega, by omega⟩ ?_
    rw [if_pos hn]
    exact overflows_offset hover
  · exact overflows_offset hleft

/-- At the root, the right child is out of reach. -/
theorem overflows_root {func : MinHeapCallbacks α} {heap : MinHeap α} (hes : 1 ≤ (func.elemSize : Int))
    (hn : 2 < (heap.nr : Int)) (hover : ¬ InInt (2 * func.elemSize)) :
    Overflows (minHeapify func heap 0) := by
  have hright : parent 2 = 0 := rfl
  rw [minHeapify]
  refine .after_compute (by decide) (.after_compute (by decide) ?_)
  rw [dif_neg (by omega)]
  exact (overflows_smallestOf hes Nat.two_pos hright hn hover).bind

/-- The sift computes the offset of the slot it is led to, and the position of its left child. -/
theorem overflows_minHeapify {elemSize : CInt} (hes : 1 ≤ (elemSize : Int)) {heap : MinHeap Bool}
    (h : LeadsTo heap pos g)
    (hover : ¬ InInt (g * 2 + 1 : Nat) ∨ g ≠ pos ∧ ¬ InInt (g * elemSize)) :
    Overflows (minHeapify (callbacks trueFirst elemSize) heap pos) := by
  have hes' : 1 ≤ ((callbacks trueFirst elemSize).elemSize : Int) := hes
  induction hk : heap.count - pos using Nat.strongRecOn generalizing heap pos with
  | ind k ih =>
    rw [minHeapify]
    by_cases htwice : InInt (pos * 2 : Nat)
    case neg => exact .compute htwice
    by_cases hleft : InInt (pos * 2 + 1 : Nat)
    case neg => exact .after_compute htwice (.compute hleft)
    refine .after_compute htwice (.after_compute hleft ?_)
    have hne : g ≠ pos := by
      rintro rfl
      exact hover.elim (· hleft) fun hx => hx.1 rfl
    obtain ⟨c, hc0, hcp, hcg, hs, hnext⟩ := h.step hne
    have hin := h.inUse
    have hlt := parent_lt hc0
    have hcn := MinHeap.lt_count.mp (hcg.trans_lt hin)
    have hchild := (parent_eq_iff hc0).mp hcp
    have hn : pos * 2 + 1 < heap.count := by omega
    rw [dif_neg (not_le.mpr (MinHeap.lt_count.mp hn))]
    by_cases hfit : ∀ k : Nat, 0 < k → parent k = pos → (k : Int) < heap.nr → InInt (k * elemSize)
    case neg =>
      simp only [not_forall] at hfit
      obtain ⟨k, hk0, hkp, hkn, hx⟩ := hfit
      exact (overflows_smallestOf hes hk0 hkp hkn hx).bind
    refine (smallestOf_spec hes heap hfit hn).overflows ?_
    rintro _ _ ⟨rfl, -⟩
    have hsmall : leastOf (callbacks trueFirst elemSize).less heap.count heap.data pos = c := hs
    have hmove : ¬ c = pos := by omega
    simp only [mul_eq_mul_iff hes', hsmall, hmove, if_false]
    refine .after_record ?_
    rw [minHeapify_next _ hc0 hcp, swp_mul hes']
    refine ih _ ?_ hnext (hover.imp_right fun hx => ⟨?_, hx.2⟩) rfl
    · simp only [MinHeap.count] at *
      omega
    · rintro rfl
      exact hx.2 (hfit g hc0 hcp hcn)

section Contents
variable {nr size elemSize : CInt}

/-- Where a sift over `n` slots is in danger, it can be led to the last of them. -/
private theorem exists_over {es n : Int} (hes : 1 ≤ es)
    (hn : ¬ (n ≤ 1073741824 ∧ (n - 1) * es ≤ 2147483647)) :
    ∃ g : Nat, 0 < g ∧ (g : Int) = n - 1 ∧ (¬ InInt (g * 2 + 1 : Nat) ∨ ¬ InInt (g * es)) := by
  have hpos : 0 < n - 1 := by
    by_contra hle
    have hmul : (n - 1) * es ≤ 0 := Int.mul_nonpos_of_nonpos_of_nonneg (by omega) (by omega)
    exact hn ⟨by omega, by omega⟩
  refine ⟨(n - 1).toNat, by omega, by omega, ?_⟩
  rw [Int.toNat_of_nonneg (by omega)]
  by_cases hle : n ≤ 1073741824
  · exact .inr fun hin => hn ⟨hle, hin.2⟩
  · refine .inl fun hin => hle ?_
    have hup := hin.2
    omega

open Classical in
noncomputable def wayTo (g i : Nat) : Bool := decide (Below i g)

private theorem wayTo_iff {i : Nat} : wayTo g i = true ↔ Below i g := by simp [wayTo]

/-- On the way, every `true` stands below a `true`. -/
theorem wayTo_parent {i : Nat} (hi : 0 < i) :
    trueFirst.less (wayTo g i) (wayTo g (parent i)) = false := by
  cases h : wayTo g i with
  | false => rfl
  | true =>
    have hp : wayTo g (parent i) = true := wayTo_iff.mpr ((below_child hi rfl).trans (wayTo_iff.mp h))
    rw [hp]
    rfl

theorem leadsTo_wayTo {heap : MinHeap Bool} (hb : Below pos g) (hg : g < heap.count)
    (hd : heap.data = Function.update (wayTo g) pos false) : LeadsTo heap pos g := by
  refine ⟨hb, hg, ?_, fun i _ hi _ => ?_⟩
  · rw [hd, Function.update_self]
  · rw [hd, Function.update_of_ne hi, wayTo_iff]

/-- A slot without children ends the sift. -/
theorem leaf_turn (func : MinHeapCallbacks α) {heap : MinHeap α} (hin : InInt (pos * 2 + 1 : Nat))
    (hn : (heap.nr : Int) ≤ (pos * 2 + 1 : Nat)) :
    Ends (minHeapify func heap pos) fun heap' _ => heap' = heap := by
  have hmax := hin.2
  rw [minHeapify]
  refine .compute ⟨by omega, by omega⟩ (.compute hin ?_)
  rw [dif_pos hn]
  exact .pure rfl

private theorem overflows_minHeapifyFrom {func : MinHeapCallbacks α} {heap : MinHeap α} {i : Nat}
    (h : Overflows (minHeapify func heap i)) : Overflows (minHeapifyFrom func heap i) := by
  cases i with
  | zero => exact h
  | succ i => exact h.bind

variable (size) (hes : 1 ≤ (elemSize : Int))
include hes

/-- A heap in order whose first element sinks too far once it is replaced. -/
theorem overflows_minHeapPopPush
    (hn : ¬ ((nr : Int) ≤ 1073741824 ∧ ((nr : Int) - 1) * elemSize ≤ 2147483647)) :
    ∃ data, OrderedFrom trueFirst data (nr : Int).toNat 0 ∧
      Overflows (minHeapPopPush (callbacks trueFirst elemSize) ⟨data, nr, size⟩ false) := by
  obtain ⟨g, hg0, hg, hx⟩ := exists_over hes hn
  refine ⟨wayTo g, fun i hi _ _ => wayTo_parent hi, ?_⟩
  rw [minHeapPopPush, copyTo_zero]
  refine .after_record (overflows_minHeapify hes (leadsTo_wayTo (below_zero g) ?_ rfl) ?_)
  · exact MinHeap.lt_count.mpr (by dsimp only; omega)
  · exact hx.imp_right fun hx => ⟨by omega, hx⟩

/-- A heap whose last element sinks too far, or is too far away. -/
private theorem overflows_minHeapPop (hpos : 0 < (nr : Int))
    (hn : ¬ ((nr : Int) - 1 ≤ 1073741824 ∧ ((nr : Int) - 1) * elemSize ≤ 2147483647)) :
    ∃ data, Overflows (minHeapPop (callbacks trueFirst elemSize) ⟨data, nr, size⟩) := by
  have hes' : 1 ≤ ((callbacks trueFirst elemSize).elemSize : Int) := hes
  have hmax := nr.2.2
  have hnr : InInt ((nr : Int) - 1) := ⟨by omega, by omega⟩
  by_cases hin : InInt (((nr : Int) - 1) * elemSize)
  · have hbig : ¬ ((nr : Int) - 1 ≤ 1073741824 ∧ ((nr : Int) - 1 - 1) * elemSize ≤ 2147483647) :=
      fun hx => hn ⟨hx.1, hin.2⟩
    obtain ⟨g, hg0, hg, hx⟩ := exists_over hes hbig
    have hlast : wayTo g (g + 1) = false := by
      refine Bool.eq_false_of_not_eq_true fun hb => ?_
      have hle := (wayTo_iff.mp hb).le
      omega
    have hpointer : ((nr : Int) - 1) * (callbacks trueFirst elemSize).elemSize =
        (g + 1 : Nat) * (callbacks trueFirst elemSize).elemSize := by
      congr 1
      omega
    refine ⟨wayTo g, ?_⟩
    rw [minHeapPop, if_neg (not_le.mpr hpos)]
    refine .after_compute hnr (overflows_after_offset hin (.after_record (Overflows.bind ?_)))
    dsimp only
    rw [hpointer, elementAt_mul hes', copyTo_zero]
    dsimp only
    rw [hlast]
    refine overflows_minHeapify hes (leadsTo_wayTo (below_zero g) ?_ rfl) ?_
    · exact MinHeap.lt_count.mpr (by dsimp only; omega)
    · exact hx.imp_right fun hx => ⟨by omega, hx⟩
  · refine ⟨fun _ => false, ?_⟩
    rw [minHeapPop, if_neg (not_le.mpr hpos)]
    exact .after_compute hnr (overflows_offset hin)

/-- An array whose last inner element sinks too far. -/
theorem overflows_minHeapifyAll
    (hn : ¬ ((nr : Int) ≤ 1073741824 ∧ ((nr : Int) - 1) * elemSize ≤ 2147483647)) :
    ∃ data, Overflows (minHeapifyAll (callbacks trueFirst elemSize) ⟨data, nr, size⟩) := by
  obtain ⟨g, hg0, hg, hx⟩ := exists_over hes hn
  have hlt := parent_lt hg0
  have hhalf : ((nr : Int) / 2).toNat = parent g + 1 := by
    unfold parent
    omega
  have hmax := nr.2.2
  let heap : MinHeap Bool := ⟨Function.update (wayTo g) (parent g) false, nr, size⟩
  refine ⟨heap.data, ?_⟩
  change Overflows (minHeapifyFrom _ heap ((nr : Int) / 2).toNat)
  rw [hhalf]
  -- the loop begins behind the last inner slot
  refine (leaf_turn _ ⟨by omega, by omega⟩ (by simp only [heap]; omega)).overflows ?_
  rintro _ _ rfl
  refine overflows_minHeapifyFrom (overflows_minHeapify hes (leadsTo_wayTo (below_child hg0 rfl) ?_ rfl) ?_)
  · exact MinHeap.lt_count.mpr (by simp only [heap]; omega)
  · exact hx.imp_right fun hx => ⟨by omega, hx⟩

end Contents

section Operations

def HeapOp.on (element : α) : HeapOp Unit → HeapOp α
  | .push _ => .push element
  | .pop => .pop
  | .popPush _ => .popPush element
  | .heapifyAll => .heapifyAll

/-- Whatever the contents and the test are, the operation computes in the range of `int`, and
hands over addresses of slots. -/
def StaysInRange (nr size elemSize : CInt) (op : HeapOp Unit) : Prop :=
  ∀ (α : Type) (less : α → α → Bool) (data : Nat → α) (element : α), ∃ heap' calls,
    (exec ⟨elemSize, less⟩ ⟨data, nr, size⟩ (op.on element)).run [] = .ok (heap', calls) ∧
    ∀ call ∈ calls, ∀ o ∈ call.pointers, SlotOffset elemSize size o

variable {nr size elemSize : CInt} {op : HeapOp Unit}

private theorem fits_on {nr size es : Int} {element : α} :
    Fits nr size es (op.on element) ↔ Fits nr size es op := by cases op <;> rfl

private theorem StaysInRange.not_overflows (h : StaysInRange nr size elemSize op)
    (data : Nat → Bool)
    (hover : Overflows (exec (callbacks trueFirst elemSize) ⟨data, nr, size⟩ (op.on false))) :
    False := by
  obtain ⟨heap', calls, hrun, -⟩ := h Bool trueFirst.less data false
  exact hover.not_run hrun

private theorem fits_push {x : Unit} (h : StaysInRange nr size elemSize (.push x)) :
    Fits nr size elemSize (.push x) := by
  intro hlt
  by_contra hover
  apply h.not_overflows fun _ => false
  apply Overflows.bind
  rw [minHeapPush, if_neg (not_le.mpr hlt)]
  exact overflows_offset fun hin => hover hin.2

private theorem fits_popPush {x : Unit} (h0 : 0 ≤ (nr : Int)) (hs : (nr : Int) ≤ size)
    (hes : 1 ≤ (elemSize : Int)) (h : StaysInRange nr size elemSize (.popPush x)) :
    Fits nr size elemSize (.popPush x) := by
  refine ⟨?_, ?_⟩
  · -- Without a slot, the element is written behind the array.
    by_contra hzero
    have hnr : (nr : Int) = 0 := by omega
    obtain ⟨heap', calls, hrun, hall⟩ := h Bool trueFirst.less (fun _ => false) false
    have hwrite : Ends (minHeapPopPush (callbacks trueFirst elemSize) ⟨fun _ => false, nr, size⟩ false)
        fun _ calls => .memcpy 0 none ∈ calls :=
      .record ((leaf_turn _ (by decide) (by simp only [copyTo_nr]; omega)).mono
        fun _ _ _ => List.mem_cons_self)
    have hcopy := hall _ (hwrite.of_run hrun) 0 List.mem_cons_self
    obtain ⟨i, hi0, hi, -⟩ := hcopy
    omega
  · by_contra hover
    obtain ⟨data, -, hx⟩ := overflows_minHeapPopPush size hes hover
    exact h.not_overflows data hx

/-- The positions and offsets of an operation are exact on every heap of these sizes if and only if
the last position a sift can reach and the last offset an access can need are in the range of
`int`. -/
theorem heap_arithmetic_exact_iff (nr size elemSize : CInt) (h0 : 0 ≤ (nr : Int))
    (hs : (nr : Int) ≤ size) (helem : 1 ≤ (elemSize : Int)) (op : HeapOp Unit) :
    StaysInRange nr size elemSize op ↔ Fits nr size elemSize op := by
  constructor
  · intro h
    cases op with
    | push x => exact fits_push h
    | pop =>
      intro hpos
      by_contra hover
      obtain ⟨data, hx⟩ := overflows_minHeapPop size helem hpos hover
      exact h.not_overflows data hx.bind
    | popPush x => exact fits_popPush h0 hs helem h
    | heapifyAll =>
      by_contra hover
      obtain ⟨data, hx⟩ := overflows_minHeapifyAll size helem hover
      exact h.not_overflows data hx
  · intro hfit α less data element
    let func : MinHeapCallbacks α := ⟨elemSize, less⟩
    let heap : MinHeap α := ⟨data, nr, size⟩
    have hends : Ends (exec func heap (op.on element)) (Performs func heap (op.on element)) :=
      exec_spec helem h0 hs _ (fits_on.mpr hfit)
    obtain ⟨heap', calls, hrun, hp⟩ := hends.run
    refine ⟨heap', calls, hrun, fun call hc => (hp.charge.proper call hc).pointers ?_⟩
    rw [hp.nr]
    exact (countAfter_le _ ((MinHeap.count_eq h0).le.trans hs)).1

/-- A push on three elements of four bytes, with room for a fourth. -/
theorem push_on_three_exact :
    StaysInRange (.of 3) (.of 4) (.of 4) (.push ()) :=
  (heap_arithmetic_exact_iff (.of 3) (.of 4) (.of 4) (by decide) (by decide)
    (by decide) _).mpr (by decide)

/-- The third element of a gigabyte would be at an offset of two gigabytes. -/
theorem push_at_two_gigabytes :
    (exec (callbacks intOrder (.of 1073741824))
      ⟨fun i => i, .of 2, .of 3⟩ (.push 5)).run [] = .error .overflow ∧
      ¬ StaysInRange (.of 2) (.of 3) (.of 1073741824) (.push ()) := by
  refine ⟨rfl, fun h => ?_⟩
  obtain ⟨heap', calls, hrun, -⟩ := h Int intOrder.less (fun i => i) 5
  cases hrun

end Operations
end CommonProject.Heap

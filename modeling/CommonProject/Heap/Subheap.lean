import CommonProject.Heap.OffsetBounds

/-! Sifting down inside a heap: the subtree at `pos` is put in order and nothing else is touched. -/
namespace CommonProject.Heap
open Foundations Foundations.ImplicitHeap
variable {α : Type}

/-- Where both subtrees below `pos` are in order, sifting its element down ends, and orders the whole
subtree by exchanges inside it. -/
def SiftsDown (nr size elemSize : CInt) (pos : Nat) : Prop :=
  ∀ (α : Type) (ord : StrictWeakOrder α) (data : Nat → α),
    let func := callbacks ord elemSize
    let heap : MinHeap α := ⟨data, nr, size⟩
    (∀ i : Nat, 0 < i → (i : Int) < nr → Below pos ((i - 1) / 2) → (i - 1) / 2 ≠ pos →
      ord.less (data i) (data ((i - 1) / 2)) = false) →
    ∃ heap' calls, (minHeapify func heap pos).run [] = .ok (heap', calls) ∧
      (∀ i : Nat, 0 < i → (i : Int) < nr → Below pos ((i - 1) / 2) →
        ord.less (heap'.data i) (heap'.data ((i - 1) / 2)) = false) ∧
      (∃ σ : Equiv.Perm Nat, heap'.data = data ∘ σ ∧
        ∀ i, ¬ (Below pos i ∧ (i : Int) < nr) → σ i = i) ∧
      (∀ i, Below pos i → (i : Int) < nr → ord.less (heap'.data i) (heap'.data pos) = false) ∧
      (∀ i, ¬ Below pos i ∨ (nr : Int) ≤ i → heap'.data i = data i) ∧
      (heap'.nr = nr ∧ heap'.size = size) ∧
      (swaps calls).foldl (fun heap s => swp func heap s.1 s.2) heap = heap' ∧
      ∀ s ∈ swaps calls, TwoSlots elemSize nr s.1 s.2

private theorem mem_swaps {calls : List Call} {s : Int × Int} :
    s ∈ swaps calls ↔ .swp s.1 s.2 ∈ calls := by
  rw [swaps, List.mem_filterMap]
  constructor
  · rintro ⟨call, hc, he⟩
    cases call with
    | swp lhs rhs => cases he; exact hc
    | less => cases he
    | memcpy => cases he
  · exact fun h => ⟨_, h, rfl⟩

/-- The contents that lead a sift to a slot where the numbers get too large. -/
private theorem overflows_of_not_siftFits {nr elemSize : CInt} (size : CInt) {pos : Nat}
    (hes : 1 ≤ (elemSize : Int)) (hpos : (pos : Int) < nr) (hfit : ¬ SiftFits nr elemSize pos) :
    ∃ data : Nat → Bool, (∀ i : Nat, 0 < i → (i : Int) < nr → Below pos ((i - 1) / 2) →
        (i - 1) / 2 ≠ pos → trueFirst.less (data i) (data ((i - 1) / 2)) = false) ∧
      Overflows (minHeapify (callbacks trueFirst elemSize) ⟨data, nr, size⟩ pos) := by
  obtain ⟨g, hb, hg, hx⟩ : ∃ g : Nat, Below pos g ∧ (g : Int) < nr ∧
      (¬ InInt (g * 2 + 1 : Nat) ∨ g ≠ pos ∧ ¬ InInt (g * elemSize)) := by
    by_contra hno
    refine hfit ⟨?_, fun g hb hg => ⟨?_, fun hne => ?_⟩⟩
    · by_contra hx
      exact hno ⟨pos, .refl, hpos, .inl hx⟩
    · by_contra hx
      exact hno ⟨g, hb, hg, .inl hx⟩
    · by_contra hx
      exact hno ⟨g, hb, hg, .inr ⟨hne, hx⟩⟩
  refine ⟨Function.update (wayTo g) pos false, fun i hi _ hbi hne => ?_,
    overflows_minHeapify hes (leadsTo_wayTo hb (MinHeap.lt_count.mpr hg) rfl) hx⟩
  have hle := hbi.le
  rw [Function.update_of_ne (by omega), Function.update_of_ne hne]
  exact wayTo_parent hi

/-- Sifting down below a slot in use does this on every array of the size if and only if the positions and
offsets of the slots in its subtree are in the range of `int`. -/
theorem sift_down_on_subheap_iff (nr size elemSize : CInt) (helem : 1 ≤ (elemSize : Int)) (pos : Nat)
    (hpos : (pos : Int) < nr) : SiftsDown nr size elemSize pos ↔ SiftFits nr elemSize pos := by
  constructor
  · intro h
    by_contra hfit
    obtain ⟨data, hsub, hx⟩ := overflows_of_not_siftFits size helem hpos hfit
    obtain ⟨heap', calls, hrun, -⟩ := h Bool trueFirst data hsub
    exact hx.not_run hrun
  · intro hfit α ord data func heap hsub
    have hn : ∀ {i : Nat}, i < heap.count ↔ (i : Int) < nr := MinHeap.lt_count
    have hsink : SinkingOn ord data heap.count (Below pos) pos :=
      ⟨fun i hi hin hb hne => hsub i hi (hn.mp hin) hb hne, fun c hc hcn hcp hp hb => by
        have hle := hb.le
        have hlt := parent_lt hp
        omega⟩
    have ho : OrderedOn ord (siftDown ord.less heap.count data pos) heap.count (Below pos) :=
      siftDown_orderedOn (fun _ hi hb => .child hi hb) .refl hsink
    have hr := siftDown_rearranged ord.less heap.count data pos
    have hes : 1 ≤ (func.elemSize : Int) := helem
    obtain ⟨_, calls, hrun, rfl, hc, hfold⟩ := (minHeapify_spec hes heap pos hfit).run
    refine ⟨_, calls, hrun, fun i hi hin hb => ho i hi (hn.mpr hin) hb, ?_, fun i hb hin =>
      ho.root_least hb (hn.mpr hin), fun i hi => ?_, ⟨rfl, rfl⟩, hfold, fun s hs => ?_⟩
    · obtain ⟨σ, hd, hσ⟩ := hr
      exact ⟨σ, hd, fun i hi => hσ i fun hx => hi ⟨hx.1, hn.mp hx.2⟩⟩
    · exact hr.eq_outside fun hx => hi.elim (· hx.1) fun hle => by have := hn.mp hx.2; omega
    · exact hc.proper _ (mem_swaps.mp hs)

/-- The left subtree of five integers, whose root is the greatest. -/
theorem left_subheap_sifted :
    let func := callbacks intOrder (.of 4)
    let heap : MinHeap Int := ⟨fun i => if i = 1 then 9 else i, .of 5, .of 5⟩
    ∃ heap' calls, (minHeapify func heap 1).run [] = .ok (heap', calls) ∧
      (∀ i, Below 1 i → (i : Int) < 5 → intOrder.less (heap'.data i) (heap'.data 1) = false) ∧
      heap'.data 2 = 2 := by
  intro func heap
  have hfit : SiftFits heap.nr func.elemSize 1 :=
    siftFits_of (by decide) (by decide) (by decide) (by decide)
  obtain ⟨heap', calls, hrun, -, -, hleast, hout, -⟩ :=
    (sift_down_on_subheap_iff heap.nr heap.size func.elemSize (by decide) 1 (by decide)).mpr hfit Int
      intOrder heap.data fun i hi hin hb hne => by
        have hle := hb.le
        have hin' : (i : Int) < 5 := hin
        omega
  refine ⟨heap', calls, hrun, hleast, hout 2 (.inl fun hb => ?_)⟩
  cases hb with
  | child _ hb => exact absurd hb.le (by decide)

/-- The root of three elements of a gigabyte each cannot be sifted down. -/
theorem three_gigabytes_not_sifted :
    (minHeapify (callbacks intOrder (.of 1073741824))
      ⟨fun i => i, .of 3, .of 3⟩ 0).run [] = .error .overflow ∧
    ¬ SiftsDown (.of 3) (.of 3) (.of 1073741824) 0 := by
  let func := callbacks intOrder (.of 1073741824)
  let heap : MinHeap Int := ⟨fun i => i, .of 3, .of 3⟩
  have hx : Overflows (minHeapify func heap 0) := overflows_root (by decide) (by decide) (by decide)
  refine ⟨hx [], fun h => ?_⟩
  obtain ⟨heap', calls, hrun, -⟩ := h Int intOrder heap.data fun i hi hin hb hne => by
    have hle := hb.le
    have hin' : (i : Int) < 3 := hin
    omega
  exact hx.not_run hrun

end CommonProject.Heap

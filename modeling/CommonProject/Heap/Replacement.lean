import CommonProject.Foundations.Ties
import CommonProject.Heap.Sorting

/-! Replacing the first element by one sift, and by a pop and a push. -/
namespace CommonProject.Heap
open Foundations Foundations.ImplicitHeap
variable {α : Type}

/-- What a client sees when it reads the first element, if there is one, and pops it: the element
and the text of the warning, `k` times. -/
def pops (func : MinHeapCallbacks α) : Nat → MinHeap α → HeapProg (List (Option α × Option String))
  | 0, _ => return []
  | k + 1, heap => do
    let first := if (heap.nr : Int) > 0 then some (heap.data 0) else none
    let (heap, warning) ← minHeapPop func heap
    let rest ← pops func k heap
    return (first, warning) :: rest

def Alike (ord : StrictWeakOrder α) (a b : Option α × Option String) : Prop :=
  Option.Rel ord.Tied a.1 b.1 ∧ a.2 = b.2

/-- The heaps hold the same elements, and no pops tell them apart but for the order of ties. -/
structure SameQueue (ord : StrictWeakOrder α) (elemSize : CInt) (heap heap' : MinHeap α) : Prop where
  nr : heap.nr = heap'.nr
  slots : slots heap = slots heap'
  ordered : OrderedFrom ord heap.data heap.count 0
  ordered' : OrderedFrom ord heap'.data heap'.count 0
  pops : ∀ k, ∃ seen seen' calls calls',
    (pops (callbacks ord elemSize) k heap).run [] = .ok (seen, calls) ∧
    (Heap.pops (callbacks ord elemSize) k heap').run [] = .ok (seen', calls') ∧
    List.Forall₂ (Alike ord) seen seen'

def popThenPush (func : MinHeapCallbacks α) (heap : MinHeap α) (element : α) : HeapProg (MinHeap α) := do
  let heap ← exec func heap .pop
  exec func heap (.push element)

/-- Both ways of replacing the first element of a heap of `nr` elements come to the same queue. -/
def Agrees (nr size elemSize : CInt) : Prop :=
  ∀ (α : Type) (ord : StrictWeakOrder α) (data : Nat → α) (element : α),
    let func := callbacks ord elemSize
    let heap : MinHeap α := ⟨data, nr, size⟩
    OrderedFrom ord heap.data heap.count 0 → ∃ replaced pushed calls calls',
      (minHeapPopPush func heap element).run [] = .ok (replaced, calls) ∧
      (popThenPush func heap element).run [] = .ok (pushed, calls') ∧
      SameQueue ord elemSize replaced pushed

variable {ord : StrictWeakOrder α} {elemSize : CInt} {heap heap' : MinHeap α}

/-- What `k` pops show of a queue of these elements, the least of them first. -/
def observed : Nat → List α → List (Option α × Option String)
  | 0, _ => []
  | k + 1, [] => (none, some "Popping an empty heap") :: observed k []
  | k + 1, x :: sorted => (some x, none) :: observed k sorted

private theorem observed_alike (k : Nat) {l l' : List α} (h : List.Forall₂ ord.Tied l l') :
    List.Forall₂ (Alike ord) (observed k l) (observed k l') := by
  induction k generalizing l l' with
  | zero => exact .nil
  | succ k ih =>
    cases h with
    | nil => exact .cons ⟨.none, rfl⟩ (ih .nil)
    | cons hfirst hrest => exact .cons ⟨.some hfirst, rfl⟩ (ih hrest)

/-- Pops see no more than emptying the heap does. -/
private theorem pops_spec (hes : 1 ≤ (elemSize : Int)) (h : Valid ord heap)
    (hnr : (heap.nr : Int) ≤ 1073741824) (hoff : ((heap.nr : Int) - 1) * elemSize ≤ 2147483647)
    (k : Nat) : Ends (pops (callbacks ord elemSize) k heap) fun seen _ =>
      ∃ sorted : List α, (sorted : Multiset α) = slots heap ∧ ord.Ascending sorted ∧
        seen = observed k sorted := by
  induction k generalizing heap with
  | zero =>
    obtain ⟨⟨sorted, empty⟩, _, _, hd⟩ := (drain_spec hes h hnr hoff heap.count le_rfl).run
    exact .pure ⟨sorted, hd.perm, hd.ascending, rfl⟩
  | succ k ih =>
    have hc := MinHeap.count_eq h.nonneg
    rw [pops]
    by_cases hn : 0 < (heap.nr : Int)
    · simp only [hn, if_true]
      refine (minHeapPop_spec hes h.nonneg h.bounded hn (by omega) hoff).bind ?_
      rintro ⟨heap', _⟩ calls ⟨rfl, (hp : Performs _ heap .pop heap' calls)⟩
      have heq : (heap'.nr : Int) = heap.nr - 1 := by
        rw [hp.nr, countAfter]
        omega
      have hfits := pop_fits hes hnr hoff
      refine (ih (h.performs hp) (heq ▸ hfits.1) (heq ▸ hfits.2)).bind ?_
      rintro _ _ ⟨sorted, hperm, hasc, rfl⟩
      obtain ⟨hperm', hasc'⟩ := ascending_cons h hp (by omega) hperm hasc
      exact .pure ⟨_, hperm', hasc', rfl⟩
    · simp only [hn, if_false]
      rw [minHeapPop_empty _ (not_lt.mp hn), pure_bind]
      refine (ih h hnr hoff).bind ?_
      rintro _ _ ⟨sorted, hperm, hasc, rfl⟩
      obtain rfl : sorted = [] := by
        have hz : slots heap = 0 := slots_eq_zero (by omega)
        exact (Multiset.coe_eq_zero _).mp (hperm.trans hz)
      exact .pure ⟨[], hperm, hasc, rfl⟩

private theorem sameQueue_of_slots (hes : 1 ≤ (elemSize : Int)) (h : Valid ord heap)
    (h' : Valid ord heap')
    (hnr : (heap.nr : Int) ≤ 1073741824) (hoff : ((heap.nr : Int) - 1) * elemSize ≤ 2147483647)
    (hs : slots heap = slots heap') : SameQueue ord elemSize heap heap' := by
  have hcard := congrArg Multiset.card hs
  have hc := MinHeap.count_eq h.nonneg
  have hc' := MinHeap.count_eq h'.nonneg
  rw [card_slots, card_slots] at hcard
  have heq : (heap'.nr : Int) = heap.nr := by omega
  refine ⟨Subtype.ext heq.symm, hs, h.ordered, h'.ordered, fun k => ?_⟩
  obtain ⟨seen, calls, hrun, sorted, hperm, hasc, rfl⟩ := (pops_spec hes h hnr hoff k).run
  obtain ⟨seen', calls', hrun', sorted', hperm', hasc', rfl⟩ :=
    (pops_spec hes h' (heq ▸ hnr) (heq ▸ hoff) k).run
  refine ⟨_, _, calls, calls', hrun, hrun', observed_alike k ?_⟩
  exact hasc.tied_of_perm hasc' (Multiset.coe_eq_coe.mp ((hperm.trans hs).trans hperm'.symm))

/-- What both ways make of a heap within the bounds. -/
private theorem both_spec (hes : 1 ≤ (elemSize : Int)) (h : Valid ord heap)
    (hsize : 0 < (heap.size : Int))
    (hnr : (heap.nr : Int) ≤ 1073741824) (hoff : ((heap.nr : Int) - 1) * elemSize ≤ 2147483647)
    (x : α) :
    Ends (minHeapPopPush (callbacks ord elemSize) heap x)
      (Performs (callbacks ord elemSize) heap (.popPush x)) ∧
    Ends (popThenPush (callbacks ord elemSize) heap x) fun pushed _ => ∃ popped calls calls',
      Performs (callbacks ord elemSize) heap .pop popped calls ∧
      Performs (callbacks ord elemSize) popped (.push x) pushed calls' := by
  refine ⟨minHeapPopPush_spec hes h.nonneg x hsize hnr hoff, ?_⟩
  have hc := MinHeap.count_eq h.nonneg
  refine (exec_performs ord .pop hes h.nonneg h.bounded fun hn => ⟨by omega, hoff⟩).bind ?_
  intro popped calls hp
  have hv := h.performs hp
  have hfit : Fits popped.nr popped.size elemSize (.push x) := fun _ => by
    rw [hp.nr, countAfter]
    rcases Nat.eq_zero_or_pos heap.count with hz | hn
    · rw [hz]
      simp
    · have heq : ((heap.count - 1 : Nat) : Int) = heap.nr - 1 := by omega
      rw [heq]
      exact hoff
  exact (exec_performs ord _ hes hv.nonneg hv.bounded hfit).mono fun pushed calls' hp' =>
    ⟨popped, calls, calls', hp, hp'⟩

/-- The pop of an empty heap does nothing, and the push keeps the new element. -/
private theorem push_after_pop {popped pushed : MinHeap α} {calls calls' : List Call} {x : α}
    (hpop : Performs (callbacks ord elemSize) heap .pop popped calls)
    (hpush : Performs (callbacks ord elemSize) popped (.push x) pushed calls') (hz : heap.count = 0)
    (hsize : 0 < (heap.size : Int)) : pushed.nr = (1 : Int) := by
  have hpopped : popped.count = 0 := by rw [hpop.count, countAfter, hz]
  rw [hpush.nr, hpop.size, hpopped, countAfter, if_pos (by exact_mod_cast hsize)]
  rfl

/-- The replacement by one sift does what a pop and a push do if and only if there is an element to
be replaced and the last position a sift can reach and the last offset are in the range of `int`: an
empty heap loses the new element, which the push would have kept. -/
theorem pop_push_agrees_iff (nr size elemSize : CInt) (h0 : 0 ≤ (nr : Int)) (hs : (nr : Int) ≤ size)
    (hsize : 1 ≤ (size : Int)) (helem : 1 ≤ (elemSize : Int)) : Agrees nr size elemSize ↔
      0 < (nr : Int) ∧ (nr : Int) ≤ 1073741824 ∧ ((nr : Int) - 1) * elemSize ≤ 2147483647 := by
  constructor
  · intro h
    have hbounds : (nr : Int) ≤ 1073741824 ∧ ((nr : Int) - 1) * elemSize ≤ 2147483647 := by
      by_contra hover
      obtain ⟨data, ho, hx⟩ := overflows_minHeapPopPush size helem hover
      obtain ⟨replaced, pushed, calls, calls', hrun, -⟩ := h Bool trueFirst data false ho
      exact hx.not_run hrun
    refine ⟨?_, hbounds⟩
    by_contra hn
    let heap : MinHeap Bool := ⟨fun _ => false, nr, size⟩
    have hc : (heap.count : Int) = nr := MinHeap.count_eq h0
    have ho : OrderedFrom trueFirst heap.data heap.count 0 := fun _ _ _ _ => rfl
    obtain ⟨replaced, pushed, calls, calls', hrun, hrun', hsame⟩ := h Bool trueFirst heap.data false ho
    obtain ⟨hone, hboth⟩ := both_spec helem ⟨h0, hs, ho⟩ hsize hbounds.1 hbounds.2 false
    have hnr : (replaced.nr : Int) = nr := (hone.of_run hrun).nr.trans hc
    obtain ⟨popped, _, _, hpop, hpush⟩ := hboth.of_run hrun'
    have hnr' := push_after_pop hpop hpush (by omega) hsize
    rw [hsame.nr] at hnr
    omega
  · rintro ⟨hn, hnr, hoff⟩ α ord data x func heap ho
    have hv : Valid ord heap := ⟨h0, hs, ho⟩
    have hc : (heap.count : Int) = nr := MinHeap.count_eq h0
    obtain ⟨hone, hboth⟩ := both_spec helem hv hsize hnr hoff x
    obtain ⟨replaced, calls, hrun, hp⟩ := hone.run
    obtain ⟨pushed, calls', hrun', popped, _, _, hpop, hpush⟩ := hboth.run
    have hvp := hv.performs hpop
    have hnr' : (replaced.nr : Int) = nr := hp.nr.trans hc
    have hroom : (popped.count : Int) < popped.size := by
      have hlast : popped.size = size := hpop.size
      rw [hpop.count, hlast, countAfter]
      omega
    refine ⟨replaced, pushed, calls, calls', hrun, hrun',
      sameQueue_of_slots helem (hv.performs hp) (hvp.performs hpush) (hnr' ▸ hnr) (hnr' ▸ hoff) ?_⟩
    refine (Multiset.cons_inj_right (heap.data 0)).mp ?_
    calc heap.data 0 ::ₘ slots replaced
        = x ::ₘ slots heap := slots_popPush hp (by omega)
      _ = x ::ₘ heap.data 0 ::ₘ slots popped := by rw [slots_pop hpop (by omega)]
      _ = heap.data 0 ::ₘ x ::ₘ slots popped := Multiset.cons_swap ..
      _ = heap.data 0 ::ₘ slots pushed := by rw [slots_push hpush hroom]

/-- The first of three integers replaced both ways. -/
theorem pop_push_agrees_on_three :
    let func := callbacks intOrder (.of 4)
    let heap : MinHeap Int := ⟨fun i => i, .of 3, .of 3⟩
    ∃ replaced pushed calls calls', (minHeapPopPush func heap 2).run [] = .ok (replaced, calls) ∧
      (popThenPush func heap 2).run [] = .ok (pushed, calls') ∧
      SameQueue intOrder (.of 4) replaced pushed := by
  intro func heap
  have ho : OrderedFrom intOrder heap.data heap.count 0 := fun i hi hn _ => by
    have hlt := parent_lt hi
    simp only [intOrder, heap, decide_eq_false_iff_not]
    omega
  exact (pop_push_agrees_iff heap.nr heap.size func.elemSize (by decide) (by decide) (by decide)
    (by decide)).mpr (by decide) Int intOrder heap.data 2 ho

/-- An empty heap with room for one element. -/
theorem pop_push_loses_element :
    let func := callbacks intOrder (.of 4)
    let heap : MinHeap Int := ⟨fun _ => 0, .of 0, .of 1⟩
    Valid intOrder heap ∧
    (∃ replaced calls, (minHeapPopPush func heap 5).run [] = .ok (replaced, calls) ∧
      replaced.nr = (0 : Int)) ∧
    (∃ pushed calls, (popThenPush func heap 5).run [] = .ok (pushed, calls) ∧ pushed.nr = (1 : Int)) ∧
    ¬ Agrees heap.nr heap.size func.elemSize := by
  intro func heap
  have hv : Valid intOrder heap := ⟨by decide, by decide, fun i hi hn _ => absurd hn (Nat.not_lt_zero i)⟩
  have hes : 1 ≤ (func.elemSize : Int) := by decide
  obtain ⟨hone, hboth⟩ := both_spec hes hv (by decide) (by decide) (by decide) 5
  have hnone : ∀ {replaced calls}, (minHeapPopPush func heap 5).run [] = .ok (replaced, calls) →
      replaced.nr = (0 : Int) := fun hrun => (hone.of_run hrun).nr
  have hkept : ∀ {pushed calls}, (popThenPush func heap 5).run [] = .ok (pushed, calls) →
      pushed.nr = (1 : Int) := fun hrun => by
    obtain ⟨popped, _, _, hpop, hpush⟩ := hboth.of_run hrun
    exact push_after_pop hpop hpush rfl (by decide)
  obtain ⟨replaced, calls, hrun, -⟩ := hone.run
  obtain ⟨pushed, calls', hrun', -⟩ := hboth.run
  refine ⟨hv, ⟨replaced, calls, hrun, hnone hrun⟩, ⟨pushed, calls', hrun', hkept hrun'⟩, fun h => ?_⟩
  obtain ⟨replaced', pushed', _, _, hrep, hpsh, hsame⟩ := h Int intOrder heap.data 5 hv.ordered
  have heq := congrArg Subtype.val hsame.nr
  rw [hnone hrep, hkept hpsh] at heq
  exact absurd heq (by decide)

end CommonProject.Heap

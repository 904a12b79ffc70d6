import CommonProject.Heap.Queue

/-! What the heap operations cost: the calls of `less` and `swp` in any run within the bounds, whatever
`less` answers of two elements. -/
namespace CommonProject.Heap
open Foundations Foundations.ImplicitHeap
variable {α : Type} {func : MinHeapCallbacks α} {heap : MinHeap α}

def execAll (func : MinHeapCallbacks α) : List (HeapOp α) → MinHeap α → HeapProg (MinHeap α)
  | [], heap => return heap
  | op :: ops, heap => do
    let heap ← exec func heap op
    execAll func ops heap

/-- Every operation meets the bounds when its turn comes. -/
def RunFits (size elemSize : Int) : Nat → List (HeapOp α) → Prop
  | _, [] => True
  | n, op :: ops => Fits n size elemSize op ∧ RunFits size elemSize (countAfter size n op) ops

instance RunFits.decidable (size elemSize : Int) : (n : Nat) → (ops : List (HeapOp α)) →
    Decidable (RunFits size elemSize n ops)
  | _, [] => inferInstanceAs (Decidable True)
  | n, op :: ops =>
    have := decidable size elemSize (countAfter size n op) ops
    inferInstanceAs (Decidable (_ ∧ _))

end CommonProject.Heap

import CommonProject.Foundations.Checked
import CommonProject.Foundations.Sifting

/-! The array heap of `min_heap.c`. A slot stands for the `elem_size` bytes of one element, and a
pointer into `data` is its byte offset, computed in `int` like the positions and the counts. -/
namespace CommonProject.Heap
open Foundations
variable {α : Type}

structure MinHeap (α : Type) where
  data : Nat → α
  nr : CInt
  size : CInt

structure MinHeapCallbacks (α : Type) where
  elemSize : CInt
  less : α → α → Bool

/-- A call of a callback, or a copy of one element: from a slot, or from the client's memory. -/
inductive Call
  | less (lhs rhs : Int)
  | swp (lhs rhs : Int)
  | memcpy (dest : Int) (src : Option Int)
  deriving DecidableEq, Repr

def Call.pointers : Call → List Int
  | less lhs rhs => [lhs, rhs]
  | swp lhs rhs => [lhs, rhs]
  | memcpy dest src => dest :: src.toList

abbrev HeapProg (β : Type) := Checked Call β

def offset (func : MinHeapCallbacks α) (index : Int) : HeapProg Int := do
  return (← compute (index * func.elemSize)).val

def slotAt (func : MinHeapCallbacks α) (pointer : Int) : Nat := (pointer / func.elemSize).toNat

def elementAt (func : MinHeapCallbacks α) (heap : MinHeap α) (pointer : Int) : α :=
  heap.data (slotAt func pointer)

def swp (func : MinHeapCallbacks α) (heap : MinHeap α) (lhs rhs : Int) : MinHeap α :=
  { heap with data := heap.data ∘ Equiv.swap (slotAt func lhs) (slotAt func rhs) }

@[simp] theorem swp_nr (func : MinHeapCallbacks α) (heap : MinHeap α) (lhs rhs : Int) :
    (swp func heap lhs rhs).nr = heap.nr := rfl

/-- `memcpy` of one element into a slot. -/
def copyTo (func : MinHeapCallbacks α) (heap : MinHeap α) (dest : Int) (element : α) : MinHeap α :=
  { heap with data := Function.update heap.data (slotAt func dest) element }

@[simp] theorem copyTo_nr (func : MinHeapCallbacks α) (heap : MinHeap α) (dest : Int) (x : α) :
    (copyTo func heap dest x).nr = heap.nr := rfl

/-- `if (less(lhs, smallest)) smallest = lhs`. -/
def lesser (func : MinHeapCallbacks α) (heap : MinHeap α) (lhs smallest : Int) : HeapProg Int := do
  record (.less lhs smallest)
  return if func.less (elementAt func heap lhs) (elementAt func heap smallest) then lhs else smallest

/-- The pointers `left`, `parent` and `smallest` of one turn of `min_heapify`. -/
def smallestOf (func : MinHeapCallbacks α) (heap : MinHeap α) (pos : Nat) :
    HeapProg (Int × Int × Int) := do
  let left ← offset func (pos * 2 + 1 : Nat)
  let parent ← offset func pos
  let smallest ← lesser func heap left parent
  let _ ← compute (pos * 2 + 2 : Nat)
  if ((pos * 2 + 2 : Nat) : Int) < heap.nr then
    let right ← offset func (pos * 2 + 2 : Nat)
    let smallest ← lesser func heap right smallest
    return (left, parent, smallest)
  else return (left, parent, smallest)

def minHeapify (func : MinHeapCallbacks α) (heap : MinHeap α) (pos : Nat) :
    HeapProg (MinHeap α) := do
  let _ ← compute (pos * 2 : Nat)
  let _ ← compute (pos * 2 + 1 : Nat)
  if _h : ((pos * 2 + 1 : Nat) : Int) ≥ heap.nr then return heap
  else
    let (left, parent, smallest) ← smallestOf func heap pos
    if smallest = parent then return heap
    else
      record (.swp smallest parent)
      let heap' := swp func heap smallest parent
      if smallest = left then minHeapify func heap' (pos * 2 + 1)
      else minHeapify func heap' (pos * 2 + 2)
termination_by (heap.nr : Int).toNat - pos
decreasing_by all_goals simp only [swp_nr]; omega

/-- The loop of `min_heapify_all` from `i` down to 0. -/
def minHeapifyFrom (func : MinHeapCallbacks α) (heap : MinHeap α) : Nat → HeapProg (MinHeap α)
  | 0 => minHeapify func heap 0
  | i + 1 => do
    let heap ← minHeapify func heap (i + 1)
    minHeapifyFrom func heap i

def minHeapifyAll (func : MinHeapCallbacks α) (heap : MinHeap α) : HeapProg (MinHeap α) :=
  minHeapifyFrom func heap ((heap.nr : Int) / 2).toNat

/-- Remove the first element. The second component is the text passed to `WARN`. -/
def minHeapPop (func : MinHeapCallbacks α) (heap : MinHeap α) :
    HeapProg (MinHeap α × Option String) := do
  if heap.nr ≤ (0 : Int) then return (heap, some "Popping an empty heap")
  else
    let nr ← compute (heap.nr - 1)
    let heap := { heap with nr := nr }
    let last ← offset func heap.nr
    record (.memcpy 0 (some last))
    let heap := copyTo func heap 0 (elementAt func heap last)
    let heap ← minHeapify func heap 0
    return (heap, none)

def minHeapPopPush (func : MinHeapCallbacks α) (heap : MinHeap α) (element : α) :
    HeapProg (MinHeap α) := do
  record (.memcpy 0 none)
  minHeapify func (copyTo func heap 0 element) 0

/-- The loop of `min_heap_push`: sift the child at `pos` up. -/
def minHeapPushLoop (func : MinHeapCallbacks α) (heap : MinHeap α) (pos : Nat) : HeapProg (MinHeap α) := do
  if _h : pos > 0 then
    let child ← offset func pos
    let parent ← offset func ((pos - 1) / 2 : Nat)
    record (.less parent child)
    if func.less (elementAt func heap parent) (elementAt func heap child) then return heap
    else
      record (.swp parent child)
      minHeapPushLoop func (swp func heap parent child) ((pos - 1) / 2)
  else return heap
termination_by pos

def minHeapPush (func : MinHeapCallbacks α) (heap : MinHeap α) (element : α) :
    HeapProg (MinHeap α × Option String) := do
  if (heap.nr : Int) ≥ heap.size then return (heap, some "Pushing on a full heap")
  else
    let pos : Int := heap.nr
    let last ← offset func pos
    record (.memcpy last none)
    let heap := copyTo func heap last element
    let nr ← compute (heap.nr + 1)
    let heap := { heap with nr := nr }
    let heap ← minHeapPushLoop func heap pos.toNat
    return (heap, none)

inductive HeapOp (α : Type)
  | push (element : α)
  | pop
  | popPush (element : α)
  | heapifyAll

def exec (func : MinHeapCallbacks α) (heap : MinHeap α) : HeapOp α → HeapProg (MinHeap α)
  | .push element => do return (← minHeapPush func heap element).1
  | .pop => do return (← minHeapPop func heap).1
  | .popPush element => minHeapPopPush func heap element
  | .heapifyAll => minHeapifyAll func heap

def MinHeap.count (heap : MinHeap α) : Nat := (heap.nr : Int).toNat

def slots (heap : MinHeap α) : Multiset α := ImplicitHeap.contents heap.data heap.count

end CommonProject.Heap

import CommonProject.Foundations.LinkedRing

/-! The intrusive circular lists of `list.c`: a `struct list_head` is an address,
and the memory gives its two fields. -/
namespace CommonProject.RingList
open Foundations

/-- The `next` and `prev` fields of every `struct list_head`. -/
abbrev Memory (α : Type) := Links α

variable {α : Type} [DecidableEq α]

def setNext (m : Memory α) (list v : α) : Memory α :=
  { m with next := Function.update m.next list v }

def setPrev (m : Memory α) (list v : α) : Memory α :=
  { m with prev := Function.update m.prev list v }

def initListHead (m : Memory α) (list : α) : Memory α :=
  let m := setNext m list list
  setPrev m list list

/-- `__list_add`: the neighbours are already known. -/
def listAddInternal (m : Memory α) (new prev next : α) : Memory α :=
  let m := setPrev m next new
  let m := setNext m new next
  let m := setPrev m new prev
  setNext m prev new

def listAdd (m : Memory α) (new head : α) : Memory α :=
  listAddInternal m new head (m.next head)

def listAddTail (m : Memory α) (new head : α) : Memory α :=
  listAddInternal m new (m.prev head) head

/-- `__list_del`: make two cells point at each other. -/
def listDelInternal (m : Memory α) (prev next : α) : Memory α :=
  let m := setPrev m next prev
  setNext m prev next

def listDelInit (m : Memory α) (entry : α) : Memory α :=
  initListHead (listDelInternal m (m.prev entry) (m.next entry)) entry

def listIsFirst (m : Memory α) (list head : α) : Bool := m.prev list = head

def listIsLast (m : Memory α) (list head : α) : Bool := m.next list = head

def listEmpty (m : Memory α) (head : α) : Bool := m.next head = head

/-- The cells a `list_for_each` loop visits, `none` when `fuel` steps do not end it. -/
def listForEach (m : Memory α) (head : α) (fuel : Nat) : Option (List α) :=
  Links.walk m.next head fuel (m.next head)

def listForEachPrev (m : Memory α) (head : α) (fuel : Nat) : Option (List α) :=
  Links.walk m.prev head fuel (m.prev head)

theorem listAddInternal_eq (m : Memory α) (new prev next : α) :
    listAddInternal m new prev next = m.insertBetween new prev next := rfl

theorem listDelInit_eq (m : Memory α) (entry : α) : listDelInit m entry = m.unlink entry := rfl

theorem initListHead_alone (m : Memory α) (list : α) :
    (initListHead m list).next list = list ∧ (initListHead m list).prev list = list := by
  simp [initListHead, setNext, setPrev]

theorem initListHead_ring (m : Memory α) (list : α) : (initListHead m list).Ring list [] :=
  (Links.ring_nil _ _).mpr (initListHead_alone m list)

/-- Initialising a cell outside a ring leaves the ring as it is. -/
theorem initListHead_other {m : Memory α} {list h : α} {xs : List α} (hr : m.Ring h xs)
    (hl : list ∉ h :: xs) : (initListHead m list).Ring h xs := by
  refine hr.congr (fun a ha => ?_) (fun a ha => ?_)
  all_goals
    have h1 : a ≠ list := fun hx => hl (hx ▸ ha)
    simp [initListHead, setNext, setPrev, h1]

end CommonProject.RingList

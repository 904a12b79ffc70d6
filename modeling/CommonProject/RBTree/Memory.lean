import Mathlib.Logic.Function.Basic
import CommonProject.Foundations.Balance

/-! The memory in which red-black trees are linked, and the accessors of `rbtree.h`. -/
namespace CommonProject.RBTree
open Foundations.RedBlack

/-- The word `__rb_parent_color` holds a pointer to the parent and a colour. `pack` is
`(unsigned long)p | color` and `redParent` the bare cast of `rb_red_parent`, which has no result
when the word is no node's address. -/
class Word (α W : Type) where
  pack : Option α → Color → W
  parent : W → Option α
  color : W → Color
  redParent : W → Option (Option α)
  setBlack : W → W
  ofParent : Option α → W
  parent_pack (p : Option α) (c : Color) : parent (pack p c) = p
  color_pack (p : Option α) (c : Color) : color (pack p c) = c
  redParent_pack (p : Option α) : redParent (pack p .red) = some p
  setBlack_pack (p : Option α) (c : Color) : setBlack (pack p c) = pack p .black
  ofParent_eq (p : Option α) : ofParent p = pack p .red

/-- The fields of every `struct rb_node` and `struct rb_root`; `none` is NULL. -/
structure Memory (α W ρ : Type) where
  rbParentColor : α → W
  rbRight : α → Option α
  rbLeft : α → Option α
  rbNode : ρ → Option α

inductive Fault
  | nullDeref
  | wildPointer
  | outOfFuel
  deriving DecidableEq, Repr

/-- A program over the memory, which stops at the first fault. -/
abbrev Prog (α W ρ β : Type) := StateT (Memory α W ρ) (Except Fault) β

inductive Slot (α ρ : Type)
  | rbNode (root : ρ)
  | rbRight (x : α)
  | rbLeft (x : α)
  deriving DecidableEq, Repr

variable {α W ρ : Type}

namespace Memory
variable [DecidableEq α] [DecidableEq ρ]

def setParentColor (m : Memory α W ρ) (x : α) (w : W) : Memory α W ρ :=
  { m with rbParentColor := Function.update m.rbParentColor x w }

def setRight (m : Memory α W ρ) (x : α) (p : Option α) : Memory α W ρ :=
  { m with rbRight := Function.update m.rbRight x p }

def setLeft (m : Memory α W ρ) (x : α) (p : Option α) : Memory α W ρ :=
  { m with rbLeft := Function.update m.rbLeft x p }

def setNode (m : Memory α W ρ) (root : ρ) (p : Option α) : Memory α W ρ :=
  { m with rbNode := Function.update m.rbNode root p }

def write (m : Memory α W ρ) (p : Option α) : Slot α ρ → Memory α W ρ
  | .rbNode root => m.setNode root p
  | .rbRight x => m.setRight x p
  | .rbLeft x => m.setLeft x p

omit [DecidableEq α] [DecidableEq ρ] in
def read (m : Memory α W ρ) : Slot α ρ → Option α
  | .rbNode root => m.rbNode root
  | .rbRight x => m.rbRight x
  | .rbLeft x => m.rbLeft x

end Memory

def deref (p : Option α) : Prog α W ρ α :=
  match p with
  | some x => pure x
  | none => throw .nullDeref

def loadParentColor (p : Option α) : Prog α W ρ W := do
  let x ← deref p
  return (← get).rbParentColor x

def loadRight (p : Option α) : Prog α W ρ (Option α) := do
  let x ← deref p
  return (← get).rbRight x

def loadLeft (p : Option α) : Prog α W ρ (Option α) := do
  let x ← deref p
  return (← get).rbLeft x

def loadNode (root : ρ) : Prog α W ρ (Option α) := do
  return (← get).rbNode root

section Stores
variable [DecidableEq α] [DecidableEq ρ]

def storeParentColor (p : Option α) (w : W) : Prog α W ρ Unit := do
  let x ← deref p
  modify fun m => m.setParentColor x w

def storeRight (p v : Option α) : Prog α W ρ Unit := do
  let x ← deref p
  modify fun m => m.setRight x v

def storeLeft (p v : Option α) : Prog α W ρ Unit := do
  let x ← deref p
  modify fun m => m.setLeft x v

def storeNode (root : ρ) (v : Option α) : Prog α W ρ Unit :=
  modify fun m => m.setNode root v

end Stores

section Accessors
variable [Word α W]

def rbParent (p : Option α) : Prog α W ρ (Option α) := do
  return Word.parent (← loadParentColor p : W)

def rbColor (p : Option α) : Prog α W ρ Color := do
  return Word.color α (← loadParentColor p : W)

def rbIsRed (p : Option α) : Prog α W ρ Bool := do
  return (← rbColor p) == .red

def rbIsBlack (p : Option α) : Prog α W ρ Bool := do
  return (← rbColor p) == .black

def rbRedParent (red : Option α) : Prog α W ρ (Option α) := do
  match Word.redParent (← loadParentColor red : W) with
  | some p => return p
  | none => throw .wildPointer

variable [DecidableEq α] [DecidableEq ρ]

def rbSetBlack (p : Option α) : Prog α W ρ Unit := do
  let w ← loadParentColor p
  storeParentColor p (Word.setBlack α w)

def rbSetParent (rb p : Option α) : Prog α W ρ Unit := do
  let c ← rbColor rb
  storeParentColor rb (Word.pack p c)

def rbSetParentColor (rb p : Option α) (color : Color) : Prog α W ρ Unit :=
  storeParentColor rb (Word.pack p color)

def rbChangeChild (old new parent : Option α) (root : ρ) : Prog α W ρ Unit := do
  if parent.isSome then
    if (← loadLeft parent) = old then storeLeft parent new
    else storeRight parent new
  else storeNode root new

def rbLinkNode (node parent : Option α) (rbLink : Slot α ρ) : Prog α W ρ Unit := do
  storeParentColor node (Word.ofParent parent)
  storeRight node none
  storeLeft node none
  modify fun m => m.write node rbLink

/-- The tests `tmp && rb_is_red(tmp)` and `!tmp || rb_is_black(tmp)`. -/
def isRedNode (p : Option α) : Prog α W ρ Bool :=
  if p.isSome then rbIsRed p else pure false

def isBlackOrNull (p : Option α) : Prog α W ρ Bool :=
  if p.isNone then pure true else rbIsBlack p

/-- `if (tmp) rb_set_parent_color(tmp, parent, color)`. -/
def adoptNode (tmp parent : Option α) (color : Color) : Prog α W ρ Unit :=
  if tmp.isSome then rbSetParentColor tmp parent color else pure ()

/-- Helper for rotations: `new` takes the parent and the colour of `old`, which becomes a child of
`new` with the given colour. -/
def rbRotateSetParents (old new : Option α) (root : ρ) (color : Color) : Prog α W ρ Unit := do
  let parent ← rbParent old
  let w ← loadParentColor old
  storeParentColor new w
  rbSetParentColor old new color
  rbChangeChild old new parent root

end Accessors
end CommonProject.RBTree

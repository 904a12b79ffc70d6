import CommonProject.RBTree.Splice

/-! `rbtree.c` with the callbacks of an augmented tree, which `rb_insert_color` and `rb_erase` leave
empty. The mirrored branches have the side as a parameter. -/
namespace CommonProject.RBTree
open Foundations.RedBlack
variable {α W ρ σ β γ : Type}

abbrev AugProg (α W ρ σ β : Type) := StateT σ (Prog α W ρ) β

/-- Statements that leave the data alone. -/
def plain (p : Prog α W ρ β) : AugProg α W ρ σ β := StateT.lift p

structure AugmentCallbacks (α W ρ σ : Type) where
  propagate (node stop : Option α) : AugProg α W ρ σ Unit
  copy (old new : Option α) : AugProg α W ρ σ Unit
  rotate (old new : Option α) : AugProg α W ρ σ Unit

def dummyCallbacks : AugmentCallbacks α W ρ σ where
  propagate _ _ := pure ()
  copy _ _ := pure ()
  rotate _ _ := pure ()

variable [Word α W] [DecidableEq α] [DecidableEq ρ]

section Rotations
variable (augmentRotate : Option α → Option α → AugProg α W ρ σ Unit)

def insertSideWith (d : Dir) (node parent gparent tmp : Option α) (root : ρ) :
    AugProg α W ρ σ (Turn α) := do
  if ← plain (isRedNode tmp) then plain do
    -- Case 1: colour flips
    rbSetParentColor tmp gparent .black
    rbSetParentColor parent gparent .black
    let node := gparent
    let parent ← rbParent node
    rbSetParentColor node parent .red
    return some (node, parent)
  else
    let tmp ← plain (loadChild d.flip parent)
    let (parent, tmp) ←
      (if node = tmp then do
        -- Case 2: rotate at parent
        plain do
          let tmp ← loadChild d node
          storeChild d.flip parent tmp
          storeChild d node parent
          adoptNode tmp parent .black
          rbSetParentColor parent node .red
        augmentRotate parent node
        let tmp ← plain (loadChild d.flip node)
        pure (node, tmp)
      else pure (parent, tmp))
    -- Case 3: rotate at gparent
    plain do
      storeChild d gparent tmp
      storeChild d.flip parent gparent
      adoptNode tmp gparent .black
      rbRotateSetParents gparent parent root .red
    augmentRotate gparent parent
    return none

def rbInsertTurnWith (node parent : Option α) (root : ρ) : AugProg α W ρ σ (Turn α) := do
  if parent.isNone then plain do
    rbSetParentColor node none .black
    return none
  else if ← plain (rbIsBlack parent) then return none
  else
    let gparent ← plain (rbRedParent parent)
    let tmp ← plain (loadRight gparent)
    if parent ≠ tmp then insertSideWith augmentRotate .left node parent gparent tmp root
    else
      let tmp ← plain (loadLeft gparent)
      insertSideWith augmentRotate .right node parent gparent tmp root

def rbInsertLoopWith (root : ρ) : Nat → Option α → Option α → AugProg α W ρ σ Unit
  | 0, _, _ => plain (throw .outOfFuel)
  | fuel + 1, node, parent => do
    match ← rbInsertTurnWith augmentRotate node parent root with
    | none => return ()
    | some (node, parent) => rbInsertLoopWith root fuel node parent

def rbInsertWith (fuel : Nat) (node : Option α) (root : ρ) : AugProg α W ρ σ Unit := do
  let parent ← plain (rbRedParent node)
  rbInsertLoopWith augmentRotate root fuel node parent

def eraseCase4With (d : Dir) (parent sibling tmp1 : Option α) (root : ρ) :
    AugProg α W ρ σ (Turn α) := do
  plain do
    let tmp2 ← loadChild d sibling
    storeChild d.flip parent tmp2
    storeChild d sibling parent
    rbSetParentColor tmp1 sibling .black
    (if tmp2.isSome then rbSetParent tmp2 parent else pure ())
    rbRotateSetParents parent sibling root .black
  augmentRotate parent sibling
  return none

def eraseCase1With (d : Dir) (parent sibling : Option α) (root : ρ) :
    AugProg α W ρ σ (Option α) := do
  let tmp1 ← plain do
    let tmp1 ← loadChild d sibling
    storeChild d.flip parent tmp1
    storeChild d sibling parent
    rbSetParentColor tmp1 parent .black
    rbRotateSetParents parent sibling root .red
    return tmp1
  augmentRotate parent sibling
  return tmp1

def eraseBlackWith (d : Dir) (parent sibling : Option α) (root : ρ) : AugProg α W ρ σ (Turn α) := do
  let tmp1 ← plain (loadChild d.flip sibling)
  if ← plain (isBlackOrNull tmp1) then
    let tmp2 ← plain (loadChild d sibling)
    if ← plain (isBlackOrNull tmp2) then plain do
      -- Case 2: sibling colour flip
      rbSetParentColor sibling parent .red
      if ← rbIsRed parent then
        rbSetBlack parent
        return none
      else
        let node := parent
        let parent ← rbParent node
        return if parent.isSome then some (node, parent) else none
    else
      -- Case 3: rotate at sibling
      plain do
        let tmp1 ← loadChild d.flip tmp2
        storeChild d sibling tmp1
        storeChild d.flip tmp2 sibling
        storeChild d.flip parent tmp2
        adoptNode tmp1 sibling .black
      augmentRotate sibling tmp2
      eraseCase4With augmentRotate d parent tmp2 sibling root
  else eraseCase4With augmentRotate d parent sibling tmp1 root

def eraseSideWith (d : Dir) (parent sibling : Option α) (root : ρ) : AugProg α W ρ σ (Turn α) := do
  let red ← plain (rbIsRed sibling)
  let sibling ←
    (if red then eraseCase1With augmentRotate d parent sibling root else pure sibling)
  eraseBlackWith augmentRotate d parent sibling root

def rbEraseColorTurnWith (node parent : Option α) (root : ρ) : AugProg α W ρ σ (Turn α) := do
  let sibling ← plain (loadRight parent)
  if node ≠ sibling then eraseSideWith augmentRotate .left parent sibling root
  else
    let sibling ← plain (loadLeft parent)
    eraseSideWith augmentRotate .right parent sibling root

def rbEraseColorLoopWith (root : ρ) : Nat → Option α → Option α → AugProg α W ρ σ Unit
  | 0, _, _ => plain (throw .outOfFuel)
  | fuel + 1, node, parent => do
    match ← rbEraseColorTurnWith augmentRotate node parent root with
    | none => return ()
    | some (node, parent) => rbEraseColorLoopWith root fuel node parent

def rbEraseColorWith (fuel : Nat) (parent : Option α) (root : ρ) : AugProg α W ρ σ Unit :=
  rbEraseColorLoopWith augmentRotate root fuel none parent

end Rotations

section Erase
variable (augment : AugmentCallbacks α W ρ σ)

/-- Where a node with two children has its successor, with the calls that are due before it moves. -/
def findSuccessorWith (fuel : Nat) (node child tmp : Option α) :
    AugProg α W ρ σ (Option α × Option α × Option α) := do
  let successor := child
  if tmp.isNone then
    -- Case 2: node's successor is its right child
    let child2 ← plain (loadRight successor)
    augment.copy node successor
    pure (successor, successor, child2)
  else
    -- Case 3: node's successor is leftmost under node's right child subtree
    let (parent, successor, child2) ← plain do
      let (parent, successor) ← successorLoop fuel successor tmp
      let child2 ← loadRight successor
      storeLeft parent child2
      storeRight successor child
      rbSetParent child successor
      pure (parent, successor, child2)
    augment.copy node successor
    augment.propagate parent successor
    pure (parent, successor, child2)

def rbEraseAugmentedWith (fuel : Nat) (node : Option α) (root : ρ) : AugProg α W ρ σ (Option α) := do
  let child ← plain (loadRight node)
  let tmp ← plain (loadLeft node)
  if tmp.isNone then
    -- Case 1: no more than one child
    let pc : W ← plain (loadParentColor node)
    let parent := Word.parent pc
    plain (rbChangeChild node child parent root)
    let rebalance ← plain
      (if child.isSome then do
        storeParentColor child pc
        pure none
      else pure (if Word.color α pc = .black then parent else none))
    augment.propagate parent none
    return rebalance
  else if child.isNone then
    -- Still case 1, but this time the child is the left one
    let parent ← plain do
      let pc : W ← loadParentColor node
      storeParentColor tmp pc
      let parent := Word.parent pc
      rbChangeChild node tmp parent root
      pure parent
    augment.propagate parent none
    return none
  else
    let tmp ← plain (loadLeft child)
    let (parent, successor, child2) ← findSuccessorWith augment fuel node child tmp
    let rebalance ← plain (takePlace node parent successor child2 root)
    augment.propagate successor none
    return rebalance

/-- What `rb_erase` does, with callbacks. -/
def rbEraseWith (fuel : Nat) (node : Option α) (root : ρ) : AugProg α W ρ σ Unit := do
  let rebalance ← rbEraseAugmentedWith augment fuel node root
  if rebalance.isSome then rbEraseColorWith augment.rotate fuel rebalance root

end Erase
end CommonProject.RBTree

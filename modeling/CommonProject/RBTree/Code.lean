import CommonProject.RBTree.Memory

/-! `rbtree.c`: the rebalancing after an insertion, and the erasure. The callbacks of an augmented
tree, which the exported functions leave empty, are in `AugmentedCode`. -/
namespace CommonProject.RBTree
open Foundations.RedBlack
variable {α W ρ : Type} [Word α W] [DecidableEq α] [DecidableEq ρ]

/-- One turn of the loop of `__rb_insert` that does not break goes on at another node, below
the given parent. -/
abbrev Turn (α : Type) := Option (Option α × Option α)

/-- `parent == gparent->rb_left`; `tmp` is the uncle. -/
def rbInsertLeft (node parent gparent tmp : Option α) (root : ρ) : Prog α W ρ (Turn α) := do
  if ← isRedNode tmp then
    -- Case 1: colour flips
    rbSetParentColor tmp gparent .black
    rbSetParentColor parent gparent .black
    let node := gparent
    let parent ← rbParent node
    rbSetParentColor node parent .red
    return some (node, parent)
  else
    let tmp ← loadRight parent
    let (parent, tmp) ←
      (if node = tmp then do
        -- Case 2: left rotate at parent
        let tmp ← loadLeft node
        storeRight parent tmp
        storeLeft node parent
        adoptNode tmp parent .black
        rbSetParentColor parent node .red
        let tmp ← loadRight node
        pure (node, tmp)
      else pure (parent, tmp))
    -- Case 3: right rotate at gparent
    storeLeft gparent tmp
    storeRight parent gparent
    adoptNode tmp gparent .black
    rbRotateSetParents gparent parent root .red
    return none

/-- `parent == gparent->rb_right`. -/
def rbInsertRight (node parent gparent tmp : Option α) (root : ρ) : Prog α W ρ (Turn α) := do
  if ← isRedNode tmp then
    -- Case 1: colour flips
    rbSetParentColor tmp gparent .black
    rbSetParentColor parent gparent .black
    let node := gparent
    let parent ← rbParent node
    rbSetParentColor node parent .red
    return some (node, parent)
  else
    let tmp ← loadLeft parent
    let (parent, tmp) ←
      (if node = tmp then do
        -- Case 2: right rotate at parent
        let tmp ← loadRight node
        storeLeft parent tmp
        storeRight node parent
        adoptNode tmp parent .black
        rbSetParentColor parent node .red
        let tmp ← loadLeft node
        pure (node, tmp)
      else pure (parent, tmp))
    -- Case 3: left rotate at gparent
    storeRight gparent tmp
    storeLeft parent gparent
    adoptNode tmp gparent .black
    rbRotateSetParents gparent parent root .red
    return none

def rbInsertTurn (node parent : Option α) (root : ρ) : Prog α W ρ (Turn α) := do
  if parent.isNone then
    rbSetParentColor node none .black
    return none
  else if ← rbIsBlack parent then return none
  else
    let gparent ← rbRedParent parent
    let tmp ← loadRight gparent
    if parent ≠ tmp then rbInsertLeft node parent gparent tmp root
    else
      let tmp ← loadLeft gparent
      rbInsertRight node parent gparent tmp root

def rbInsertLoop (root : ρ) : Nat → Option α → Option α → Prog α W ρ Unit
  | 0, _, _ => throw .outOfFuel
  | fuel + 1, node, parent => do
    match ← rbInsertTurn node parent root with
    | none => return ()
    | some (node, parent) => rbInsertLoop root fuel node parent

/-- `__rb_insert`, and so `rb_insert_color`. -/
def rbInsertColor (fuel : Nat) (node : Option α) (root : ρ) : Prog α W ρ Unit := do
  let parent ← rbRedParent node
  rbInsertLoop root fuel node parent

/-- The two calls with which a client inserts at the place it has found. -/
def rbInsert (fuel : Nat) (node parent : Option α) (rbLink : Slot α ρ) (root : ρ) :
    Prog α W ρ Unit := do
  rbLinkNode node parent rbLink
  rbInsertColor fuel node root

/-- The loop to the leftmost node below `successor`, with its parent. -/
def successorLoop : Nat → Option α → Option α → Prog α W ρ (Option α × Option α)
  | 0, _, _ => throw .outOfFuel
  | fuel + 1, successor, tmp => do
    let parent := successor
    let successor := tmp
    let tmp ← loadLeft tmp
    if tmp.isSome then successorLoop fuel successor tmp
    else return (parent, successor)

def rbEraseAugmented (fuel : Nat) (node : Option α) (root : ρ) : Prog α W ρ (Option α) := do
  let child ← loadRight node
  let tmp ← loadLeft node
  if tmp.isNone then
    -- Case 1: no more than one child
    let pc : W ← loadParentColor node
    let parent := Word.parent pc
    rbChangeChild node child parent root
    if child.isSome then
      storeParentColor child pc
      return none
    else return if Word.color α pc = .black then parent else none
  else if child.isNone then
    -- Still case 1, but this time the child is the left one
    let pc : W ← loadParentColor node
    storeParentColor tmp pc
    let parent := Word.parent pc
    rbChangeChild node tmp parent root
    return none
  else
    let successor := child
    let tmp ← loadLeft child
    let (parent, successor, child2) ←
      (if tmp.isNone then do
        -- Case 2: node's successor is its right child
        let child2 ← loadRight successor
        pure (successor, successor, child2)
      else do
        -- Case 3: node's successor is leftmost under node's right child subtree
        let (parent, successor) ← successorLoop fuel successor tmp
        let child2 ← loadRight successor
        storeLeft parent child2
        storeRight successor child
        rbSetParent child successor
        pure (parent, successor, child2))
    let tmp ← loadLeft node
    storeLeft successor tmp
    rbSetParent tmp successor
    let pc : W ← loadParentColor node
    let tmp := Word.parent pc
    rbChangeChild node successor tmp root
    let rebalance ←
      (if child2.isSome then do
        rbSetParentColor child2 parent .black
        pure none
      else do
        pure (if ← rbIsBlack successor then parent else none))
    storeParentColor successor pc
    return rebalance

def rbEraseCase4Left (parent sibling tmp1 : Option α) (root : ρ) : Prog α W ρ (Turn α) := do
  let tmp2 ← loadLeft sibling
  storeRight parent tmp2
  storeLeft sibling parent
  rbSetParentColor tmp1 sibling .black
  (if tmp2.isSome then rbSetParent tmp2 parent else pure ())
  rbRotateSetParents parent sibling root .black
  return none

def rbEraseLeft (parent sibling : Option α) (root : ρ) : Prog α W ρ (Turn α) := do
  let red ← rbIsRed sibling
  let sibling ←
    (if red then do
      -- Case 1: left rotate at parent
      let tmp1 ← loadLeft sibling
      storeRight parent tmp1
      storeLeft sibling parent
      rbSetParentColor tmp1 parent .black
      rbRotateSetParents parent sibling root .red
      pure tmp1
    else pure sibling)
  let tmp1 ← loadRight sibling
  if ← isBlackOrNull tmp1 then
    let tmp2 ← loadLeft sibling
    if ← isBlackOrNull tmp2 then
      -- Case 2: sibling colour flip
      rbSetParentColor sibling parent .red
      if ← rbIsRed parent then
        rbSetBlack parent
        return none
      else
        let node := parent
        let parent ← rbParent node
        return if parent.isSome then some (node, parent) else none
    else
      -- Case 3: right rotate at sibling
      let tmp1 ← loadRight tmp2
      storeLeft sibling tmp1
      storeRight tmp2 sibling
      storeRight parent tmp2
      adoptNode tmp1 sibling .black
      rbEraseCase4Left parent tmp2 sibling root
  else rbEraseCase4Left parent sibling tmp1 root

def rbEraseCase4Right (parent sibling tmp1 : Option α) (root : ρ) : Prog α W ρ (Turn α) := do
  let tmp2 ← loadRight sibling
  storeLeft parent tmp2
  storeRight sibling parent
  rbSetParentColor tmp1 sibling .black
  (if tmp2.isSome then rbSetParent tmp2 parent else pure ())
  rbRotateSetParents parent sibling root .black
  return none

def rbEraseRight (parent sibling : Option α) (root : ρ) : Prog α W ρ (Turn α) := do
  let red ← rbIsRed sibling
  let sibling ←
    (if red then do
      -- Case 1: right rotate at parent
      let tmp1 ← loadRight sibling
      storeLeft parent tmp1
      storeRight sibling parent
      rbSetParentColor tmp1 parent .black
      rbRotateSetParents parent sibling root .red
      pure tmp1
    else pure sibling)
  let tmp1 ← loadLeft sibling
  if ← isBlackOrNull tmp1 then
    let tmp2 ← loadRight sibling
    if ← isBlackOrNull tmp2 then
      -- Case 2: sibling colour flip
      rbSetParentColor sibling parent .red
      if ← rbIsRed parent then
        rbSetBlack parent
        return none
      else
        let node := parent
        let parent ← rbParent node
        return if parent.isSome then some (node, parent) else none
    else
      -- Case 3: left rotate at sibling
      let tmp1 ← loadLeft tmp2
      storeRight sibling tmp1
      storeLeft tmp2 sibling
      storeLeft parent tmp2
      adoptNode tmp1 sibling .black
      rbEraseCase4Right parent tmp2 sibling root
  else rbEraseCase4Right parent sibling tmp1 root

def rbEraseColorTurn (node parent : Option α) (root : ρ) : Prog α W ρ (Turn α) := do
  let sibling ← loadRight parent
  if node ≠ sibling then rbEraseLeft parent sibling root
  else
    let sibling ← loadLeft parent
    rbEraseRight parent sibling root

def rbEraseColorLoop (root : ρ) : Nat → Option α → Option α → Prog α W ρ Unit
  | 0, _, _ => throw .outOfFuel
  | fuel + 1, node, parent => do
    match ← rbEraseColorTurn node parent root with
    | none => return ()
    | some (node, parent) => rbEraseColorLoop root fuel node parent

def rbEraseColor (fuel : Nat) (parent : Option α) (root : ρ) : Prog α W ρ Unit :=
  rbEraseColorLoop root fuel none parent

def rbErase (fuel : Nat) (node : Option α) (root : ρ) : Prog α W ρ Unit := do
  let rebalance ← rbEraseAugmented fuel node root
  if rebalance.isSome then rbEraseColor fuel rebalance root

end CommonProject.RBTree

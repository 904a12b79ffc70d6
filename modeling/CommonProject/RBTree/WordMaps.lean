import Mathlib.Logic.Function.Basic
import CommonProject.Foundations.Lockstep
import CommonProject.RBTree.Splice

/-! The code treats words alike that hold the same parent and colour. -/
namespace CommonProject.RBTree
open Foundations Foundations.RedBlack
variable {α V W ρ β : Type}

def Memory.mapWord (φ : V → W) (m : Memory α V ρ) : Memory α W ρ :=
  ⟨fun x => φ (m.rbParentColor x), m.rbRight, m.rbLeft, m.rbNode⟩

/-- `φ w` holds the same parent and the same colour as `w`, though the bare cast may fail on `w`. -/
structure WordMap (α : Type) {V W : Type} [Word α V] [Word α W] (φ : V → W) : Prop where
  pack (p : Option α) (c : Color) : φ (Word.pack p c) = Word.pack p c
  parent (w : V) : Word.parent (φ w) = (Word.parent w : Option α)
  color (w : V) : Word.color α (φ w) = Word.color α w
  redParent (w : V) : Word.redParent w = (none : Option (Option α)) ∨
    Word.redParent (φ w) = (Word.redParent w : Option (Option α))
  setBlack (w : V) : φ (Word.setBlack α w) = Word.setBlack α (φ w)

/-- The second program does on the other words what the first one does, unless that takes a word for
an address that is none. -/
abbrev Mapped (φ : V → W) (p : Prog α V ρ β) (q : Prog α W ρ β) : Prop :=
  Lockstep (Memory.mapWord φ) (· = Fault.wildPointer) p q

section Links
variable {φ : V → W}

private theorem mapped_loadRight (p : Option α) :
    Mapped φ (loadRight p : Prog α V ρ _) (loadRight p) := by
  apply Lockstep.of_eq
  intro m
  cases p <;> rfl

private theorem mapped_loadLeft (p : Option α) :
    Mapped φ (loadLeft p : Prog α V ρ _) (loadLeft p) := by
  apply Lockstep.of_eq
  intro m
  cases p <;> rfl

/-- The words that are loaded correspond. -/
private theorem mapped_loadParentColor {g : V → Prog α V ρ β} {g' : W → Prog α W ρ β} (p : Option α)
    (hg : ∀ w, Mapped φ (g w) (g' (φ w))) :
    Mapped φ (loadParentColor p >>= g) (loadParentColor p >>= g') := by
  intro m
  cases p with
  | none => exact .inr rfl
  | some x => exact hg (m.rbParentColor x) m

variable [DecidableEq α]

private theorem mapped_storeRight (p v : Option α) :
    Mapped φ (storeRight p v : Prog α V ρ _) (storeRight p v) := by
  apply Lockstep.of_eq
  intro m
  cases p <;> rfl

private theorem mapped_storeLeft (p v : Option α) :
    Mapped φ (storeLeft p v : Prog α V ρ _) (storeLeft p v) := by
  apply Lockstep.of_eq
  intro m
  cases p <;> rfl

private theorem mapWord_setParentColor (φ : V → W) (m : Memory α V ρ) (x : α) (w : V) :
    (m.setParentColor x w).mapWord φ = (m.mapWord φ).setParentColor x (φ w) :=
  congrArg (fun f => (⟨f, m.rbRight, m.rbLeft, m.rbNode⟩ : Memory α W ρ))
    (Function.comp_update φ m.rbParentColor x w)

private theorem mapped_storeParentColor (p : Option α) (w : V) :
    Mapped φ (storeParentColor p w : Prog α V ρ _) (storeParentColor p (φ w)) := by
  apply Lockstep.of_eq
  intro m
  cases p with
  | none => rfl
  | some x => exact congrArg (fun m => Except.ok ((), m)) (mapWord_setParentColor φ m x w).symm

variable [DecidableEq ρ]

private theorem mapped_write (sl : Slot α ρ) (v : Option α) :
    Mapped φ (modify fun m => m.write v sl : Prog α V ρ _) (modify fun m => m.write v sl) := by
  apply Lockstep.of_eq
  intro m
  cases sl <;> rfl

end Links

section Accessors
variable [Word α V] [Word α W] {φ : V → W}

private theorem mapped_rbParent (hφ : WordMap α φ) (p : Option α) :
    Mapped φ (rbParent p : Prog α V ρ _) (rbParent p) := by
  apply mapped_loadParentColor
  intro w
  rw [hφ.parent]
  exact .pure _

private theorem mapped_rbColor (hφ : WordMap α φ) (p : Option α) :
    Mapped φ (rbColor p : Prog α V ρ _) (rbColor p) := by
  apply mapped_loadParentColor
  intro w
  rw [hφ.color]
  exact .pure _

private theorem mapped_rbIsRed (hφ : WordMap α φ) (p : Option α) :
    Mapped φ (rbIsRed p : Prog α V ρ _) (rbIsRed p) :=
  .bind (mapped_rbColor hφ p) fun _ => .pure _

private theorem mapped_rbIsBlack (hφ : WordMap α φ) (p : Option α) :
    Mapped φ (rbIsBlack p : Prog α V ρ _) (rbIsBlack p) :=
  .bind (mapped_rbColor hφ p) fun _ => .pure _

theorem mapped_rbRedParent (hφ : WordMap α φ) (p : Option α) :
    Mapped φ (rbRedParent p : Prog α V ρ _) (rbRedParent p) := by
  apply mapped_loadParentColor
  intro w
  rcases hφ.redParent w with hw | hw
  · rw [hw]
    exact fun m => .inl ⟨_, rfl, rfl⟩
  · rw [hw]
    cases (Word.redParent w : Option (Option α)) with
    | none => exact .throw _
    | some p => exact .pure _

private theorem mapped_isRedNode (hφ : WordMap α φ) (p : Option α) :
    Mapped φ (isRedNode p : Prog α V ρ _) (isRedNode p) :=
  .ite (mapped_rbIsRed hφ p) (.pure _)

private theorem mapped_isBlackOrNull (hφ : WordMap α φ) (p : Option α) :
    Mapped φ (isBlackOrNull p : Prog α V ρ _) (isBlackOrNull p) :=
  .ite (.pure _) (mapped_rbIsBlack hφ p)

variable [DecidableEq α] [DecidableEq ρ]

omit [DecidableEq ρ] in
private theorem mapped_rbSetBlack (hφ : WordMap α φ) (p : Option α) :
    Mapped φ (rbSetBlack p : Prog α V ρ _) (rbSetBlack p) := by
  apply mapped_loadParentColor
  intro w
  rw [← hφ.setBlack]
  exact mapped_storeParentColor p _

omit [DecidableEq ρ] in
private theorem mapped_rbSetParentColor (hφ : WordMap α φ) (rb p : Option α) (c : Color) :
    Mapped φ (rbSetParentColor rb p c : Prog α V ρ _) (rbSetParentColor rb p c) := by
  rw [rbSetParentColor, rbSetParentColor, ← hφ.pack]
  exact mapped_storeParentColor rb _

omit [DecidableEq ρ] in
private theorem mapped_rbSetParent (hφ : WordMap α φ) (rb p : Option α) :
    Mapped φ (rbSetParent rb p : Prog α V ρ _) (rbSetParent rb p) :=
  .bind (mapped_rbColor hφ rb) fun c => mapped_rbSetParentColor hφ rb p c

omit [DecidableEq ρ] in
private theorem mapped_adoptNode (hφ : WordMap α φ) (tmp p : Option α) (c : Color) :
    Mapped φ (adoptNode tmp p c : Prog α V ρ _) (adoptNode tmp p c) :=
  .ite (mapped_rbSetParentColor hφ tmp p c) (.pure _)

omit [Word α V] [Word α W] in
private theorem mapped_rbChangeChild (old new parent : Option α) (root : ρ) :
    Mapped φ (rbChangeChild old new parent root : Prog α V ρ _)
      (rbChangeChild old new parent root) := by
  refine .ite (.bind (mapped_loadLeft parent) fun tmp => ?_) (mapped_write (.rbNode root) new)
  exact .ite (mapped_storeLeft parent new) (mapped_storeRight parent new)

theorem mapped_rbLinkNode (hφ : WordMap α φ) (node parent : Option α) (rbLink : Slot α ρ) :
    Mapped φ (rbLinkNode node parent rbLink : Prog α V ρ _) (rbLinkNode node parent rbLink) := by
  rw [rbLinkNode, rbLinkNode, Word.ofParent_eq, Word.ofParent_eq, ← hφ.pack]
  refine .bind (mapped_storeParentColor node _) fun _ => ?_
  refine .bind (mapped_storeRight node none) fun _ => ?_
  exact .bind (mapped_storeLeft node none) fun _ => mapped_write rbLink node

private theorem mapped_rbRotateSetParents (hφ : WordMap α φ) (old new : Option α) (root : ρ)
    (c : Color) : Mapped φ (rbRotateSetParents old new root c : Prog α V ρ _)
      (rbRotateSetParents old new root c) := by
  refine .bind (mapped_rbParent hφ old) fun parent => mapped_loadParentColor old fun w => ?_
  refine .bind (mapped_storeParentColor new w) fun _ => ?_
  exact .bind (mapped_rbSetParentColor hφ old new c) fun _ =>
    mapped_rbChangeChild old new parent root

end Accessors

section Programs
variable [Word α V] [Word α W] [DecidableEq α] {φ : V → W}

omit [Word α V] [Word α W] [DecidableEq α] in
private theorem mapped_loadChild (d : Dir) (p : Option α) :
    Mapped φ (loadChild d p : Prog α V ρ _) (loadChild d p) := by
  cases d
  · exact mapped_loadLeft p
  · exact mapped_loadRight p

omit [Word α V] [Word α W] in
private theorem mapped_storeChild (d : Dir) (p v : Option α) :
    Mapped φ (storeChild d p v : Prog α V ρ _) (storeChild d p v) := by
  cases d
  · exact mapped_storeLeft p v
  · exact mapped_storeRight p v

omit [Word α V] [Word α W] [DecidableEq α] in
private theorem mapped_successorLoop (fuel : Nat) (successor tmp : Option α) :
    Mapped φ (successorLoop fuel successor tmp : Prog α V ρ _) (successorLoop fuel successor tmp) := by
  induction fuel generalizing successor tmp with
  | zero => exact .throw _
  | succ fuel ih => exact .bind (mapped_loadLeft tmp) fun tmp' => .ite (ih tmp tmp') (.pure _)

variable [DecidableEq ρ]

private theorem mapped_insertSide (hφ : WordMap α φ) (d : Dir) (node parent gparent tmp : Option α)
    (root : ρ) : Mapped φ (insertSide d node parent gparent tmp root : Prog α V ρ _)
      (insertSide d node parent gparent tmp root) := by
  refine .bind (mapped_isRedNode hφ tmp) fun red => .ite ?_ ?_
  · refine .bind (mapped_rbSetParentColor hφ tmp gparent .black) fun _ => ?_
    refine .bind (mapped_rbSetParentColor hφ parent gparent .black) fun _ => ?_
    refine .bind (mapped_rbParent hφ gparent) fun parent => ?_
    exact .bind (mapped_rbSetParentColor hφ gparent parent .red) fun _ => .pure _
  · refine .bind (mapped_loadChild d.flip parent) fun tmp => .bind (.ite ?_ (.pure _)) ?_
    · refine .bind (mapped_loadChild d node) fun tmp => ?_
      refine .bind (mapped_storeChild d.flip parent tmp) fun _ => ?_
      refine .bind (mapped_storeChild d node parent) fun _ => ?_
      refine .bind (mapped_adoptNode hφ tmp parent .black) fun _ => ?_
      refine .bind (mapped_rbSetParentColor hφ parent node .red) fun _ => ?_
      exact .bind (mapped_loadChild d.flip node) fun tmp => .pure _
    · rintro ⟨parent, tmp⟩
      refine .bind (mapped_storeChild d gparent tmp) fun _ => ?_
      refine .bind (mapped_storeChild d.flip parent gparent) fun _ => ?_
      refine .bind (mapped_adoptNode hφ tmp gparent .black) fun _ => ?_
      exact .bind (mapped_rbRotateSetParents hφ gparent parent root .red) fun _ => .pure _

theorem mapped_rbInsertTurn (hφ : WordMap α φ) (node parent : Option α) (root : ρ) :
    Mapped φ (rbInsertTurn node parent root : Prog α V ρ _) (rbInsertTurn node parent root) := by
  refine .ite (.bind (mapped_rbSetParentColor hφ node none .black) fun _ => .pure _) ?_
  refine .bind (mapped_rbIsBlack hφ parent) fun black => .ite (.pure _) ?_
  refine .bind (mapped_rbRedParent hφ parent) fun gparent => ?_
  refine .bind (mapped_loadRight gparent) fun tmp => .ite ?_ ?_
  · exact mapped_insertSide hφ .left node parent gparent tmp root
  · exact .bind (mapped_loadLeft gparent) fun tmp =>
      mapped_insertSide hφ .right node parent gparent tmp root

omit [Word α V] [Word α W] [DecidableEq α] [DecidableEq ρ] in
/-- A loop stays in step when its turns do. -/
private theorem mapped_turns {turn : Option α → Option α → Prog α V ρ (Turn α)}
    {turn' : Option α → Option α → Prog α W ρ (Turn α)}
    {loop : Nat → Option α → Option α → Prog α V ρ Unit}
    {loop' : Nat → Option α → Option α → Prog α W ρ Unit}
    (hturn : ∀ node parent, Mapped φ (turn node parent) (turn' node parent))
    (hzero : ∀ node parent, Mapped φ (loop 0 node parent) (loop' 0 node parent))
    (hsucc : ∀ k node parent, loop (k + 1) node parent =
      turn node parent >>= fun b => b.elim (pure ()) fun a => loop k a.1 a.2)
    (hsucc' : ∀ k node parent, loop' (k + 1) node parent =
      turn' node parent >>= fun b => b.elim (pure ()) fun a => loop' k a.1 a.2)
    (k : Nat) (node parent : Option α) : Mapped φ (loop k node parent) (loop' k node parent) := by
  induction k generalizing node parent with
  | zero => exact hzero node parent
  | succ k ih =>
    rw [hsucc, hsucc']
    refine .bind (hturn node parent) fun b => ?_
    cases b with
    | none => exact .pure ()
    | some a => exact ih a.1 a.2

theorem mapped_rbInsert (hφ : WordMap α φ) (fuel : Nat) (node parent : Option α) (rbLink : Slot α ρ)
    (root : ρ) :
    Mapped φ (rbInsert fuel node parent rbLink root : Prog α V ρ _)
      (rbInsert fuel node parent rbLink root) := by
  refine .bind (mapped_rbLinkNode hφ node parent rbLink) fun _ => ?_
  refine .bind (mapped_rbRedParent hφ node) fun parent => ?_
  exact mapped_turns (fun node parent => mapped_rbInsertTurn hφ node parent root)
    (fun _ _ => .throw _) (rbInsertLoop_succ root) (rbInsertLoop_succ root) fuel node parent

private theorem mapped_eraseCase4 (hφ : WordMap α φ) (d : Dir) (parent sibling tmp1 : Option α)
    (root : ρ) : Mapped φ (eraseCase4 d parent sibling tmp1 root : Prog α V ρ _)
      (eraseCase4 d parent sibling tmp1 root) := by
  refine .bind (mapped_loadChild d sibling) fun tmp2 => ?_
  refine .bind (mapped_storeChild d.flip parent tmp2) fun _ => ?_
  refine .bind (mapped_storeChild d sibling parent) fun _ => ?_
  refine .bind (mapped_rbSetParentColor hφ tmp1 sibling .black) fun _ => ?_
  refine .bind (.ite (mapped_rbSetParent hφ tmp2 parent) (.pure _)) fun _ => ?_
  exact .bind (mapped_rbRotateSetParents hφ parent sibling root .black) fun _ => .pure _

private theorem mapped_eraseCase1 (hφ : WordMap α φ) (d : Dir) (parent sibling : Option α)
    (root : ρ) :
    Mapped φ (eraseCase1 d parent sibling root : Prog α V ρ _) (eraseCase1 d parent sibling root) := by
  refine .bind (mapped_loadChild d sibling) fun tmp1 => ?_
  refine .bind (mapped_storeChild d.flip parent tmp1) fun _ => ?_
  refine .bind (mapped_storeChild d sibling parent) fun _ => ?_
  refine .bind (mapped_rbSetParentColor hφ tmp1 parent .black) fun _ => ?_
  exact .bind (mapped_rbRotateSetParents hφ parent sibling root .red) fun _ => .pure _

private theorem mapped_eraseBlack (hφ : WordMap α φ) (d : Dir) (parent sibling : Option α)
    (root : ρ) :
    Mapped φ (eraseBlack d parent sibling root : Prog α V ρ _) (eraseBlack d parent sibling root) := by
  refine .bind (mapped_loadChild d.flip sibling) fun tmp1 => ?_
  refine .bind (mapped_isBlackOrNull hφ tmp1) fun black => .ite ?_ ?_
  · refine .bind (mapped_loadChild d sibling) fun tmp2 => ?_
    refine .bind (mapped_isBlackOrNull hφ tmp2) fun black => .ite ?_ ?_
    · refine .bind (mapped_rbSetParentColor hφ sibling parent .red) fun _ => ?_
      refine .bind (mapped_rbIsRed hφ parent) fun red => .ite ?_ ?_
      · exact .bind (mapped_rbSetBlack hφ parent) fun _ => .pure _
      · exact .bind (mapped_rbParent hφ parent) fun _ => .pure _
    · refine .bind (mapped_loadChild d.flip tmp2) fun tmp1 => ?_
      refine .bind (mapped_storeChild d sibling tmp1) fun _ => ?_
      refine .bind (mapped_storeChild d.flip tmp2 sibling) fun _ => ?_
      refine .bind (mapped_storeChild d.flip parent tmp2) fun _ => ?_
      refine .bind (mapped_adoptNode hφ tmp1 sibling .black) fun _ => ?_
      exact mapped_eraseCase4 hφ d parent tmp2 sibling root
  · exact mapped_eraseCase4 hφ d parent sibling tmp1 root

private theorem mapped_eraseSide (hφ : WordMap α φ) (d : Dir) (parent sibling : Option α)
    (root : ρ) :
    Mapped φ (eraseSide d parent sibling root : Prog α V ρ _) (eraseSide d parent sibling root) := by
  refine .bind (mapped_rbIsRed hφ sibling) fun red => ?_
  refine .bind (.ite (mapped_eraseCase1 hφ d parent sibling root) (.pure _)) fun sibling => ?_
  exact mapped_eraseBlack hφ d parent sibling root

theorem mapped_rbEraseColorTurn (hφ : WordMap α φ) (node parent : Option α) (root : ρ) :
    Mapped φ (rbEraseColorTurn node parent root : Prog α V ρ _)
      (rbEraseColorTurn node parent root) := by
  refine .bind (mapped_loadRight parent) fun sibling => .ite ?_ ?_
  · exact mapped_eraseSide hφ .left parent sibling root
  · exact .bind (mapped_loadLeft parent) fun sibling =>
      mapped_eraseSide hφ .right parent sibling root

omit [DecidableEq ρ] in
private theorem mapped_findSuccessor (hφ : WordMap α φ) (fuel : Nat) (child tmp : Option α) :
    Mapped φ (findSuccessor fuel child tmp : Prog α V ρ _) (findSuccessor fuel child tmp) := by
  refine .ite (.bind (mapped_loadRight child) fun _ => .pure _) ?_
  refine .bind (mapped_successorLoop fuel child tmp) ?_
  rintro ⟨parent, successor⟩
  refine .bind (mapped_loadRight successor) fun child2 => ?_
  refine .bind (mapped_storeLeft parent child2) fun _ => ?_
  refine .bind (mapped_storeRight successor child) fun _ => ?_
  exact .bind (mapped_rbSetParent hφ child successor) fun _ => .pure _

private theorem mapped_takePlace (hφ : WordMap α φ) (node parent successor child2 : Option α)
    (root : ρ) : Mapped φ (takePlace node parent successor child2 root : Prog α V ρ _)
      (takePlace node parent successor child2 root) := by
  refine .bind (mapped_loadLeft node) fun tmp => ?_
  refine .bind (mapped_storeLeft successor tmp) fun _ => ?_
  refine .bind (mapped_rbSetParent hφ tmp successor) fun _ => mapped_loadParentColor node fun pc => ?_
  rw [hφ.parent]
  refine .bind (mapped_rbChangeChild node successor _ root) fun _ => .bind (.ite ?_ ?_) ?_
  · exact .bind (mapped_rbSetParentColor hφ child2 parent .black) fun _ => .pure _
  · exact .bind (mapped_rbIsBlack hφ successor) fun _ => .pure _
  · exact fun rebalance => .bind (mapped_storeParentColor successor pc) fun _ => .pure _

theorem mapped_rbEraseAugmented (hφ : WordMap α φ) (fuel : Nat) (node : Option α) (root : ρ) :
    Mapped φ (rbEraseAugmented fuel node root : Prog α V ρ _) (rbEraseAugmented fuel node root) := by
  refine .bind (mapped_loadRight node) fun child => .bind (mapped_loadLeft node) fun tmp => ?_
  refine .ite (mapped_loadParentColor node fun pc => ?_) (.ite ?_ ?_)
  · rw [hφ.parent, hφ.color]
    refine .bind (mapped_rbChangeChild node child _ root) fun _ => .ite ?_ (.pure _)
    exact .bind (mapped_storeParentColor child pc) fun _ => .pure _
  · apply mapped_loadParentColor
    intro pc
    rw [hφ.parent]
    refine .bind (mapped_storeParentColor tmp pc) fun _ => ?_
    exact .bind (mapped_rbChangeChild node tmp _ root) fun _ => .pure _
  · refine .bind (mapped_loadLeft child) fun tmp => .bind (mapped_findSuccessor hφ fuel child tmp) ?_
    rintro ⟨parent, successor, child2⟩
    exact mapped_takePlace hφ node parent successor child2 root

theorem mapped_rbErase (hφ : WordMap α φ) (fuel : Nat) (node : Option α) (root : ρ) :
    Mapped φ (rbErase fuel node root : Prog α V ρ _) (rbErase fuel node root) := by
  refine .bind (mapped_rbEraseAugmented hφ fuel node root) fun rebalance => .ite ?_ (.pure _)
  exact mapped_turns (fun node parent => mapped_rbEraseColorTurn hφ node parent root)
    (fun _ _ => .throw _) (rbEraseColorLoop_succ root) (rbEraseColorLoop_succ root) fuel none rebalance

end Programs
end CommonProject.RBTree

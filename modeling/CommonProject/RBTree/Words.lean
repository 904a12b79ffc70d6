import CommonProject.RBTree.Memory

/-! The word with the parent and the colour: two fields, or packed into 64 bits. -/
namespace CommonProject.RBTree
open Foundations.RedBlack

/-- A parent field and a colour field. Here `rb_red_parent` has no result unless the node is red. -/
instance fields {α : Type} : Word α (Option α × Color) where
  pack p c := (p, c)
  parent := Prod.fst
  color := Prod.snd
  redParent w := if w.2 = .red then some w.1 else none
  setBlack w := (w.1, .black)
  ofParent p := (p, .red)
  parent_pack _ _ := rfl
  color_pack _ _ := rfl
  redParent_pack _ := rfl
  setBlack_pack _ _ := rfl
  ofParent_eq _ := rfl

/-- The address of a node, which `sizeof(long)` aligns. -/
abbrev Address := { a : BitVec 64 // a ≠ 0#64 ∧ a &&& 3#64 = 0#64 }

def bit : Color → BitVec 64
  | .red => 0#64
  | .black => 1#64

def bits : Option Address → BitVec 64
  | none => 0#64
  | some a => a.val

/-- The node at an address, or NULL, if there can be one. -/
def nodeAt (a : BitVec 64) : Option (Option Address) :=
  if h : a = 0#64 then some none
  else if h' : a &&& 3#64 = 0#64 then some (some ⟨a, h, h'⟩)
  else none

section Bits
variable (p : Option Address) (c : Color)

private theorem bits_and : bits p &&& 3#64 = 0#64 := by
  cases p with
  | none => rfl
  | some a => exact a.2.2

private theorem nodeAt_bits : nodeAt (bits p) = some p := by
  cases p with
  | none => rfl
  | some a => rw [nodeAt, bits, dif_neg a.2.1, dif_pos a.2.2]

private theorem bits_and_not : bits p &&& ~~~3#64 = bits p :=
  calc
    bits p &&& ~~~3#64 = (bits p &&& 3#64) ||| (bits p &&& ~~~3#64) := by
      rw [bits_and, BitVec.zero_or]
    _ = bits p &&& (3#64 ||| ~~~3#64) := BitVec.and_or_distrib_left.symm
    _ = bits p := by rw [BitVec.or_not_self, BitVec.and_allOnes]

private theorem bits_and_one : bits p &&& 1#64 = 0#64 :=
  calc
    bits p &&& 1#64 = bits p &&& (3#64 &&& 1#64) := rfl
    _ = bits p &&& 3#64 &&& 1#64 := (BitVec.and_assoc ..).symm
    _ = 0#64 := by rw [bits_and, BitVec.zero_and]

/-- Masking with `~3` leaves the parent. -/
private theorem pack_and_not : (bits p ||| bit c) &&& ~~~3#64 = bits p := by
  have hbit : bit c &&& ~~~3#64 = 0#64 := by cases c <;> rfl
  rw [BitVec.and_or_distrib_right, bits_and_not, hbit, BitVec.or_zero]

/-- Bit 0 is the colour. -/
private theorem pack_and_one : (bits p ||| bit c) &&& 1#64 = bit c := by
  have hbit : bit c &&& 1#64 = bit c := by cases c <;> rfl
  rw [BitVec.and_or_distrib_right, bits_and_one, hbit, BitVec.zero_or]

end Bits

/-- The word of the code: the colour is in the lowest bit of the parent's address. -/
instance packed : Word Address (BitVec 64) where
  pack p c := bits p ||| bit c
  parent w := (nodeAt (w &&& ~~~3#64)).join
  color w := if w &&& 1#64 = 0#64 then .red else .black
  redParent := nodeAt
  setBlack w := w ||| 1#64
  ofParent := bits
  parent_pack p c := by rw [pack_and_not, nodeAt_bits, Option.join_some]
  color_pack p c := by
    rw [pack_and_one]
    cases c <;> rfl
  redParent_pack p := (congrArg nodeAt (BitVec.or_zero ..)).trans (nodeAt_bits p)
  setBlack_pack p c := by
    have hbit : bit c ||| 1#64 = bit .black := by cases c <;> rfl
    rw [BitVec.or_assoc, hbit]
  ofParent_eq p := (BitVec.or_zero ..).symm

end CommonProject.RBTree

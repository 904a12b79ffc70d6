import CommonProject.Foundations.ImplicitHeap

/-! Elements that a strict weak order cannot tell apart, and sorting up to them. -/
namespace CommonProject.Foundations.StrictWeakOrder
variable {α : Type} (ord : StrictWeakOrder α)

def Tied (a b : α) : Prop := ord.less a b = false ∧ ord.less b a = false

def ties : Setoid α where
  r := ord.Tied
  iseqv := {
    refl := fun a => ⟨ord.irrefl a, ord.irrefl a⟩
    symm := fun h => ⟨h.2, h.1⟩
    trans := fun h h' => ⟨ord.not_less_trans h'.1 h.1, ord.not_less_trans h.2 h'.2⟩ }

variable {ord}

theorem Tied.not_less {a a' b b' : α} (ha : ord.Tied a a') (hb : ord.Tied b b')
    (h : ord.less a b = false) : ord.less a' b' = false :=
  ord.not_less_trans hb.1 (ord.not_less_trans h ha.2)

theorem Tied.less_eq {a a' b b' : α} (ha : ord.Tied a a') (hb : ord.Tied b b') :
    ord.less a b = ord.less a' b' := by
  cases h' : ord.less a' b' with
  | false => exact Tied.not_less ⟨ha.2, ha.1⟩ ⟨hb.2, hb.1⟩ h'
  | true =>
    by_contra h
    rw [Bool.not_eq_true] at h
    simpa [h'] using ha.not_less hb h

variable (ord)

def onTies : StrictWeakOrder (Quotient ord.ties) where
  less := Quotient.lift₂ ord.less fun _ _ _ _ ha hb => Tied.less_eq ha hb
  irrefl := Quotient.ind ord.irrefl
  trans {a b c} := Quotient.inductionOn₃ a b c fun _ _ _ => ord.trans
  tie_trans {a b c} := Quotient.inductionOn₃ a b c fun _ _ _ => ord.tie_trans

private theorem onTies_total : ord.onTies.Total :=
  Quotient.ind₂ fun _ _ h h' => Quotient.sound ⟨h, h'⟩

variable {ord}

/-- Two ways to sort the same elements differ by the order of tied elements only. -/
theorem Ascending.tied_of_perm {l l' : List α} (h : ord.Ascending l) (h' : ord.Ascending l')
    (hp : l.Perm l') : List.Forall₂ ord.Tied l l' := by
  let cls : α → Quotient ord.ties := Quotient.mk ord.ties
  have hcls : ∀ {l : List α}, ord.Ascending l → ord.onTies.Ascending (l.map cls) := fun hl =>
    List.pairwise_map.mpr hl
  have hmap : l.map cls = l'.map cls :=
    (hcls h).eq_of_perm ord.onTies_total (hcls h') (hp.map cls)
  rw [← List.forall₂_eq_eq_eq, List.forall₂_map_left_iff, List.forall₂_map_right_iff] at hmap
  exact hmap.imp fun _ _ => Quotient.exact

end CommonProject.Foundations.StrictWeakOrder

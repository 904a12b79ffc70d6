import Mathlib.Data.List.Chain
import Mathlib.Data.List.Nodup
import Mathlib.Logic.Function.Basic

/-! Doubly linked rings: two pointer fields that are inverse of each other along
a cyclic sequence, and the two splices that change one such sequence. -/
namespace CommonProject.Foundations

/-- Two pointer fields over one space of cells. -/
structure Links (α : Type) where
  next : α → α
  prev : α → α

namespace Links
variable {α : Type}

def Joined (m : Links α) (a b : α) : Prop := m.next a = b ∧ m.prev b = a

/-- From `h` the cells of `xs` follow one another and lead back to `h`. -/
def Ring (m : Links α) (h : α) (xs : List α) : Prop := List.IsChain m.Joined (h :: (xs ++ [h]))

/-- Follow one field from `a` until `stop`, at most `fuel` times. -/
def walk [DecidableEq α] (field : α → α) (stop : α) : Nat → α → Option (List α)
  | 0, _ => none
  | fuel + 1, a => if a = stop then some [] else (walk field stop fuel (field a)).map (a :: ·)

def reversed (m : Links α) : Links α := ⟨m.prev, m.next⟩

theorem ring_nil (m : Links α) (h : α) : m.Ring h [] ↔ m.next h = h ∧ m.prev h = h := by
  simp [Ring, Joined]

/-- Reading a ring through the other field lists it backwards. -/
theorem Ring.reversed {m : Links α} {h : α} {xs : List α} (hr : m.Ring h xs) :
    m.reversed.Ring h xs.reverse := by
  have he : h :: (xs.reverse ++ [h]) = (h :: (xs ++ [h])).reverse := by simp
  rw [Ring, he, List.isChain_reverse]
  exact hr.imp fun a b hj => ⟨hj.2, hj.1⟩

theorem Ring.next_of_split {m : Links α} {h a : α} {l r : List α} {xs : List α}
    (hr : m.Ring h xs) (he : h :: xs = l ++ a :: r) : m.Joined a ((r ++ [h]).head (by simp)) := by
  have hc : h :: (xs ++ [h]) = l ++ a :: (r ++ [h]) := by
    rw [← List.cons_append, he, List.append_assoc, List.cons_append]
  rw [Ring, hc] at hr
  cases r with
  | nil => exact (List.isChain_append_cons_cons.mp hr).2.1
  | cons b r => exact (List.isChain_append_cons_cons.mp hr).2.1

/-- A ring is closed under its forward field, which the backward field inverts. -/
theorem Ring.next_mem {m : Links α} {h a : α} {xs : List α} (hr : m.Ring h xs)
    (ha : a ∈ h :: xs) : m.next a ∈ h :: xs ∧ m.prev (m.next a) = a := by
  obtain ⟨l, r, he⟩ := List.append_of_mem ha
  obtain ⟨hn, hp⟩ := hr.next_of_split he
  refine ⟨?_, by rw [hn, hp]⟩
  rw [hn]
  cases r with
  | nil => simp
  | cons b r => rw [he]; simp

theorem Ring.prev_mem {m : Links α} {h a : α} {xs : List α} (hr : m.Ring h xs)
    (ha : a ∈ h :: xs) : m.prev a ∈ h :: xs ∧ m.next (m.prev a) = a := by
  have hm := hr.reversed.next_mem (a := a) (by simpa using ha)
  exact ⟨by simpa [Links.reversed] using hm.1, hm.2⟩

/-- The sequence of a ring determines both fields of its cells. -/
theorem Ring.fields_unique {m m' : Links α} {h a : α} {xs : List α} (hr : m.Ring h xs)
    (hr' : m'.Ring h xs) (ha : a ∈ h :: xs) : m'.next a = m.next a ∧ m'.prev a = m.prev a := by
  have hnext : ∀ {m m' : Links α} {xs : List α}, m.Ring h xs → m'.Ring h xs → a ∈ h :: xs →
      m'.next a = m.next a := by
    intro m m' xs hr hr' ha
    obtain ⟨l, r, he⟩ := List.append_of_mem ha
    rw [(hr.next_of_split he).1, (hr'.next_of_split he).1]
  exact ⟨hnext hr hr' ha, hnext hr.reversed hr'.reversed (by simpa using ha)⟩

theorem Ring.next_anchor {m : Links α} {h : α} {xs : List α} (hr : m.Ring h xs) :
    m.next h = xs.head?.getD h := by
  have hj := (hr.next_of_split (l := []) rfl).1
  cases xs <;> exact hj

/-- The anchor points at itself exactly when nothing else is on the ring. -/
theorem Ring.next_anchor_self {m : Links α} {h : α} {xs : List α} (hr : m.Ring h xs) (hh : h ∉ xs) :
    m.next h = h ↔ xs = [] := by
  rw [hr.next_anchor]
  cases xs with
  | nil => simp
  | cons b xs =>
    rw [List.mem_cons, not_or] at hh
    simpa using Ne.symm hh.1

/-- The cell behind the anchor is the first one. -/
theorem Ring.prev_eq_anchor {m : Links α} {h e : α} {xs : List α} (hr : m.Ring h xs)
    (hh : h ∉ xs) (he : e ∈ xs) : m.prev e = h ↔ xs.head? = some e := by
  have hb : m.next (m.prev e) = e := (hr.prev_mem (List.mem_cons_of_mem _ he)).2
  constructor
  · intro hp
    rw [hp, hr.next_anchor] at hb
    cases xs with
    | nil => cases he
    | cons b xs => exact congrArg some hb
  · intro hx
    have hn := hr.next_anchor
    rw [hx, Option.getD_some] at hn
    rw [← hn]
    exact (hr.next_mem (by simp)).2

/-- The cell in front of the anchor is the last one. -/
theorem Ring.next_eq_anchor {m : Links α} {h e : α} {xs : List α} (hr : m.Ring h xs)
    (hh : h ∉ xs) (he : e ∈ xs) : m.next e = h ↔ xs.getLast? = some e := by
  have hx := hr.reversed.prev_eq_anchor (e := e) (by simpa using hh) (by simpa using he)
  rwa [List.head?_reverse] at hx

/-- A chain only depends on the forward field before its end and on the
backward field after its start. -/
theorem chain_congr {m m' : Links α} : ∀ {c : List α},
    (∀ a ∈ c.dropLast, m'.next a = m.next a) → (∀ b ∈ c.tail, m'.prev b = m.prev b) →
    List.IsChain m.Joined c → List.IsChain m'.Joined c
  | [], _, _, _ => .nil
  | [_], _, _, _ => .singleton _
  | a :: b :: c, hn, hp, hc => by
    rw [List.isChain_cons_cons] at hc ⊢
    refine ⟨⟨?_, ?_⟩, chain_congr (fun x hx => hn x ?_) (fun y hy => hp y ?_) hc.2⟩
    · rw [hn a (by simp)]; exact hc.1.1
    · rw [hp b (by simp)]; exact hc.1.2
    · rw [List.dropLast_cons_cons]; exact List.mem_cons_of_mem _ hx
    · exact List.mem_cons_of_mem _ hy

/-- Changes away from a ring leave it as it is. -/
theorem Ring.congr {m m' : Links α} {h : α} {xs : List α} (hr : m.Ring h xs)
    (hn : ∀ a ∈ h :: xs, m'.next a = m.next a) (hp : ∀ a ∈ h :: xs, m'.prev a = m.prev a) :
    m'.Ring h xs := by
  refine chain_congr (fun a ha => hn a ?_) (fun b hb => hp b ?_) hr
  · rwa [← List.cons_append, List.dropLast_concat] at ha
  · simpa [or_comm] using hb

/-- Following a ring from its anchor lists the ring and stops. -/
theorem Ring.walk_next [DecidableEq α] {m : Links α} {h : α} {xs : List α} (hr : m.Ring h xs)
    (hh : h ∉ xs) (fuel : Nat) (hf : xs.length < fuel) : walk m.next h fuel (m.next h) = some xs := by
  have hc : ∀ (ys : List α) (a : α) (fuel : Nat), h ∉ ys → ys.length < fuel →
      List.IsChain m.Joined (a :: (ys ++ [h])) → walk m.next h fuel (m.next a) = some ys := by
    intro ys
    induction ys with
    | nil =>
      intro a fuel _ hf hc
      obtain ⟨fuel, rfl⟩ := Nat.exists_eq_succ_of_ne_zero (by omega : fuel ≠ 0)
      have hj : m.next a = h := by simpa [Joined] using hc.rel.1
      simp [walk, hj]
    | cons b ys ih =>
      intro a fuel hn hf hc
      obtain ⟨fuel, rfl⟩ := Nat.exists_eq_succ_of_ne_zero (by omega : fuel ≠ 0)
      rw [List.cons_append, List.isChain_cons_cons] at hc
      simp only [List.mem_cons, not_or] at hn
      have hl : ys.length < fuel := by simpa using hf
      rw [hc.1.1, walk, if_neg (Ne.symm hn.1), ih b fuel hn.2 hl hc.2, Option.map_some]
  exact hc xs h fuel hh hf hr

theorem Ring.walk_prev [DecidableEq α] {m : Links α} {h : α} {xs : List α} (hr : m.Ring h xs)
    (hh : h ∉ xs) (fuel : Nat) (hf : xs.length < fuel) :
    walk m.prev h fuel (m.prev h) = some xs.reverse :=
  hr.reversed.walk_next (by simpa using hh) fuel (by simpa using hf)

section Splice
variable [DecidableEq α]

def insertBetween (m : Links α) (new p n : α) : Links α :=
  ⟨Function.update (Function.update m.next new n) p new,
    Function.update (Function.update m.prev n new) new p⟩

def unlink (m : Links α) (e : α) : Links α :=
  ⟨Function.update (Function.update m.next (m.prev e) (m.next e)) e e,
    Function.update (Function.update m.prev (m.next e) (m.prev e)) e e⟩

private theorem chain_insertBetween {m : Links α} {l r : List α} {new p n : α}
    (hc : List.IsChain m.Joined (l ++ p :: n :: r)) (hs : (l ++ p :: (n :: r).dropLast).Nodup)
    (ht : ((l ++ [p]).tail ++ n :: r).Nodup) (hn : new ∉ l ++ p :: n :: r) :
    List.IsChain (m.insertBetween new p n).Joined (l ++ p :: new :: n :: r) := by
  obtain ⟨hl, -, hr⟩ := List.isChain_append_cons_cons.mp hc
  simp only [List.mem_append, List.mem_cons, not_or] at hn
  obtain ⟨hnl, hnp, hnn, hnr⟩ := hn
  rw [List.isChain_append_cons_cons, List.isChain_cons_cons]
  refine ⟨?_, ⟨by simp [insertBetween], by simp [insertBetween]⟩, ⟨?_, ?_⟩, ?_⟩
  · refine chain_congr (fun a ha => ?_) (fun b hb => ?_) hl
    · rw [List.dropLast_concat] at ha
      have hap : a ≠ p := by rintro rfl; exact (List.nodup_append.mp hs).2.2 a ha a (by simp) rfl
      have han : a ≠ new := by rintro rfl; exact hnl ha
      simp [insertBetween, hap, han]
    · have hbn : b ≠ n := by rintro rfl; exact (List.nodup_append.mp ht).2.2 b hb b (by simp) rfl
      have hbw : b ≠ new := by
        rintro rfl
        rcases List.mem_append.mp (List.mem_of_mem_tail hb) with hb | hb
        · exact hnl hb
        · exact hnp (by simpa using hb)
      simp [insertBetween, hbn, hbw]
  · simp [insertBetween, hnp]
  · simp [insertBetween, Ne.symm hnn]
  · refine chain_congr (fun a ha => ?_) (fun b hb => ?_) hr
    · have hap : a ≠ p := by
        rintro rfl
        exact (List.nodup_cons.mp (List.nodup_append.mp hs).2.1).1 ha
      have han : a ≠ new := by
        rintro rfl
        rcases List.mem_cons.mp (List.dropLast_subset _ ha) with rfl | ha
        · exact hnn rfl
        · exact hnr ha
      simp [insertBetween, hap, han]
    · rw [List.tail_cons] at hb
      have hbn : b ≠ n := by
        rintro rfl
        exact (List.nodup_cons.mp (List.nodup_append.mp ht).2.1).1 hb
      have hbw : b ≠ new := by rintro rfl; exact hnr hb
      simp [insertBetween, hbn, hbw]

/-- Splicing a fresh cell behind `p` extends the ring at that place only. -/
theorem Ring.insert_split {m : Links α} {h p new : α} {xs l r : List α} (hr : m.Ring h xs)
    (hd : (h :: xs).Nodup) (hn : new ∉ h :: xs) (he : h :: xs = l ++ p :: r) :
    List.IsChain (m.insertBetween new p (m.next p)).Joined (l ++ p :: new :: (r ++ [h])) := by
  have hj := (hr.next_of_split he).1
  have hc : h :: (xs ++ [h]) = l ++ p :: (r ++ [h]) := by
    rw [← List.cons_append, he, List.append_assoc, List.cons_append]
  have hx : xs ++ [h] = (l ++ [p]).tail ++ (r ++ [h]) := by
    cases l with
    | nil => simp_all
    | cons a l => simp_all
  have hd' : (xs ++ [h]).Nodup := by
    rw [List.nodup_append]
    exact ⟨(List.nodup_cons.mp hd).2, by simp, by
      rintro a ha b hb rfl
      exact (List.nodup_cons.mp hd).1 (by simpa [List.mem_singleton.mp hb] using ha)⟩
  have hm : new ∉ l ++ p :: (r ++ [h]) := by
    rw [← hc]
    simpa [or_comm] using hn
  rw [he] at hd
  rw [hx] at hd'
  rw [Ring, hc] at hr
  rw [hj]
  cases r with
  | nil => exact chain_insertBetween hr (by simpa using hd) hd' hm
  | cons b r =>
    refine chain_insertBetween hr ?_ hd' hm
    change (l ++ p :: (b :: r ++ [h]).dropLast).Nodup
    rw [List.dropLast_concat]
    exact hd

/-- At the anchor the new cell becomes the first one. -/
theorem Ring.insert_first {m : Links α} {h new : α} {xs : List α} (hr : m.Ring h xs)
    (hd : (h :: xs).Nodup) (hn : new ∉ h :: xs) :
    (m.insertBetween new h (m.next h)).Ring h (new :: xs) :=
  hr.insert_split hd hn (l := []) rfl

theorem Ring.insert_after {m : Links α} {h p new : α} {l r : List α} (hr : m.Ring h (l ++ p :: r))
    (hd : (h :: (l ++ p :: r)).Nodup) (hn : new ∉ h :: (l ++ p :: r)) :
    (m.insertBetween new p (m.next p)).Ring h (l ++ p :: new :: r) := by
  have hs := hr.insert_split hd hn (l := h :: l) (p := p) (r := r) rfl
  simpa [Ring] using hs

omit [DecidableEq α] in
private theorem Ring.of_reversed {m : Links α} {h : α} {xs : List α}
    (hr : m.reversed.Ring h xs) : m.Ring h xs.reverse := hr.reversed

private theorem insertBetween_reversed (m : Links α) {new p n : α} (hp : new ≠ p) (hn : new ≠ n) :
    (m.reversed.insertBetween new n p) = (m.insertBetween new p n).reversed := by
  simp only [insertBetween, reversed]
  rw [Function.update_comm hn, Function.update_comm hp]

/-- In front of the anchor the new cell becomes the last one. -/
theorem Ring.insert_last {m : Links α} {h new : α} {xs : List α} (hr : m.Ring h xs)
    (hd : (h :: xs).Nodup) (hn : new ∉ h :: xs) :
    (m.insertBetween new (m.prev h) h).Ring h (xs ++ [new]) := by
  have hp : new ≠ m.prev h := by rintro rfl; exact hn (hr.prev_mem (by simp)).1
  have hn' : new ∉ h :: xs.reverse := by simpa using hn
  have hs := hr.reversed.insert_first (by simpa using hd) hn'
  rw [show m.reversed.next = m.prev from rfl, insertBetween_reversed m hp (by simp_all)] at hs
  simpa using hs.of_reversed

theorem Ring.insert_before {m : Links α} {h n new : α} {l r : List α} (hr : m.Ring h (l ++ n :: r))
    (hd : (h :: (l ++ n :: r)).Nodup) (hn : new ∉ h :: (l ++ n :: r)) :
    (m.insertBetween new (m.prev n) n).Ring h (l ++ new :: n :: r) := by
  have hp : new ≠ m.prev n := by rintro rfl; exact hn (hr.prev_mem (by simp)).1
  have he : (l ++ n :: r).reverse = r.reverse ++ n :: l.reverse := by simp
  have hb := hr.reversed
  have hd' : (h :: (l ++ n :: r).reverse).Nodup := by
    rw [List.nodup_cons, List.mem_reverse, List.nodup_reverse]
    exact List.nodup_cons.mp hd
  have hn' : new ∉ h :: (l ++ n :: r).reverse := by
    rw [List.mem_cons, List.mem_reverse, ← List.mem_cons]
    exact hn
  rw [he] at hb hd' hn'
  have hs := hb.insert_after hd' hn'
  rw [show m.reversed.next = m.prev from rfl, insertBetween_reversed m hp (by simp_all)] at hs
  simpa using hs.of_reversed

/-- A ring that contains neither the new cell nor its neighbours is untouched. -/
theorem Ring.insertBetween_other {m : Links α} {h new p n : α} {xs : List α} (hr : m.Ring h xs)
    (hw : new ∉ h :: xs) (hp : p ∉ h :: xs) (hn : n ∉ h :: xs) :
    (m.insertBetween new p n).Ring h xs := by
  refine hr.congr (fun a ha => ?_) (fun a ha => ?_)
  all_goals
    have h1 : a ≠ new := fun hx => hw (hx ▸ ha)
    have h2 : a ≠ p := fun hx => hp (hx ▸ ha)
    have h3 : a ≠ n := fun hx => hn (hx ▸ ha)
    simp [insertBetween, h1, h2, h3]

theorem unlink_self (m : Links α) (e : α) : (m.unlink e).next e = e ∧ (m.unlink e).prev e = e := by
  simp [unlink]

/-- Unlinking a cell that is already linked to itself changes nothing. -/
theorem unlink_of_alone {m : Links α} {e : α} (hn : m.next e = e) (hp : m.prev e = e) :
    m.unlink e = m := by
  have h1 : Function.update (Function.update m.next (m.prev e) (m.next e)) e e = m.next := by
    rw [hp, hn, Function.update_idem, Function.update_eq_self_iff, hn]
  have h2 : Function.update (Function.update m.prev (m.next e) (m.prev e)) e e = m.prev := by
    rw [hn, hp, Function.update_idem, Function.update_eq_self_iff, hp]
  rw [unlink, h1, h2]

private theorem chain_unlink {m : Links α} {l r : List α} {p e n : α}
    (hc : List.IsChain m.Joined (l ++ p :: e :: n :: r)) (hs : (l ++ p :: e :: (n :: r).dropLast).Nodup)
    (ht : ((l ++ [p]).tail ++ e :: n :: r).Nodup) (hep : e ≠ p) (hen : e ≠ n) :
    List.IsChain (m.unlink e).Joined (l ++ p :: n :: r) := by
  obtain ⟨hl, hpe, hr⟩ := List.isChain_append_cons_cons.mp hc
  obtain ⟨hen', hr⟩ := List.isChain_cons_cons.mp hr
  have hu : m.unlink e = ⟨Function.update (Function.update m.next p n) e e,
      Function.update (Function.update m.prev n p) e e⟩ := by rw [unlink, hpe.2, hen'.1]
  rw [hu, List.isChain_append_cons_cons]
  obtain ⟨-, hs2, hs3⟩ := List.nodup_append.mp hs
  obtain ⟨-, ht2, ht3⟩ := List.nodup_append.mp ht
  simp only [List.nodup_cons, List.mem_cons, not_or] at hs2 ht2
  refine ⟨?_, ⟨by simp [Ne.symm hep], by simp [Ne.symm hen]⟩, ?_⟩
  · refine chain_congr (fun a ha => ?_) (fun b hb => ?_) hl
    · rw [List.dropLast_concat] at ha
      have h1 : a ≠ p := by rintro rfl; exact hs3 a ha a (by simp) rfl
      have h2 : a ≠ e := by rintro rfl; exact hs3 a ha a (by simp) rfl
      simp [h1, h2]
    · have h1 : b ≠ n := by rintro rfl; exact ht3 b hb b (by simp) rfl
      have h2 : b ≠ e := by rintro rfl; exact ht3 b hb b (by simp) rfl
      simp [h1, h2]
  · refine chain_congr (fun a ha => ?_) (fun b hb => ?_) hr
    · have h1 : a ≠ p := by rintro rfl; exact hs2.1.2 ha
      have h2 : a ≠ e := by rintro rfl; exact hs2.2.1 ha
      simp [h1, h2]
    · rw [List.tail_cons] at hb
      have h1 : b ≠ n := by rintro rfl; exact ht2.2.1 hb
      have h2 : b ≠ e := by rintro rfl; exact ht2.1.2 hb
      simp [h1, h2]

/-- Unlinking a cell removes exactly it from its ring. -/
theorem Ring.unlink_mem {m : Links α} {h e : α} {l r : List α} (hr : m.Ring h (l ++ e :: r))
    (hd : (h :: (l ++ e :: r)).Nodup) : (m.unlink e).Ring h (l ++ r) := by
  -- The cell before `e` is the anchor or the last one of `l`, the cell after it
  -- the first one of `r` or again the anchor.
  obtain ⟨u, p, hu⟩ : ∃ u p, h :: l = u ++ [p] :=
    ⟨_, _, (List.dropLast_append_getLast (List.cons_ne_nil h l)).symm⟩
  obtain ⟨n, v, hv⟩ : ∃ n v, r ++ [h] = n :: v := by cases r <;> exact ⟨_, _, rfl⟩
  have hc : h :: (l ++ e :: r ++ [h]) = u ++ p :: e :: n :: v := by
    rw [List.append_assoc, List.cons_append, hv, ← List.cons_append, hu]; simp
  have ho : h :: (l ++ r ++ [h]) = u ++ p :: n :: v := by
    rw [List.append_assoc, hv, ← List.cons_append, hu]; simp
  have hvd : (n :: v).dropLast = r := by rw [← hv, List.dropLast_concat]
  have hut : (u ++ [p]).tail = l := by rw [← hu, List.tail_cons]
  have hd1 : (u ++ p :: e :: r).Nodup := by
    have hx : u ++ p :: e :: r = h :: (l ++ e :: r) := by rw [← List.cons_append, hu]; simp
    rwa [hx]
  have hd2 : (l ++ e :: n :: v).Nodup := by
    have hx : (l ++ e :: n :: v) = (l ++ e :: r) ++ [h] := by rw [← hv]; simp
    rw [hx, List.nodup_append]
    refine ⟨(List.nodup_cons.mp hd).2, by simp, ?_⟩
    rintro a ha b hb rfl
    exact (List.nodup_cons.mp hd).1 (by simpa [List.mem_singleton.mp hb] using ha)
  have hep : e ≠ p := by
    rintro rfl
    simpa using (List.nodup_append.mp hd1).2.1
  have hen : e ≠ n := by
    rintro rfl
    simpa using (List.nodup_append.mp hd2).2.1
  rw [Ring, hc] at hr
  rw [Ring, ho]
  exact chain_unlink hr (by rwa [hvd]) (by rwa [hut]) hep hen

/-- A ring that contains neither the removed cell nor its neighbours is untouched. -/
theorem Ring.unlink_other {m : Links α} {h e : α} {xs : List α} (hr : m.Ring h xs)
    (he : e ∉ h :: xs) (hn : m.next e ∉ h :: xs) (hp : m.prev e ∉ h :: xs) :
    (m.unlink e).Ring h xs := by
  refine hr.congr (fun a ha => ?_) (fun a ha => ?_)
  all_goals
    have h1 : a ≠ e := fun hx => he (hx ▸ ha)
    have h2 : a ≠ m.next e := fun hx => hn (hx ▸ ha)
    have h3 : a ≠ m.prev e := fun hx => hp (hx ▸ ha)
    simp [unlink, h1, h2, h3]

end Splice
end Links
end CommonProject.Foundations

import CommonProject.RingList.Basic
import CommonProject.RingList.Sequences

/-! Every run of the list operations keeps one ring in memory for each sequence. -/
namespace CommonProject.RingList
open Foundations CommonProject.RingList.Lists
variable {α : Type} [DecidableEq α]

/-- Runs of the operations from any memory, together with the sequences they are for.
Cells take their roles as they are used; nothing is said about cells never initialised. -/
inductive Reaches : Memory α → Lists α → Prop
  | start (m : Memory α) : Reaches m blank
  | head {m s h} : Reaches m s → (hf : s.FreeHead h) →
      Reaches (initListHead m h) (s.initHead h hf)
  | entry {m s e} : Reaches m s → (hf : s.FreeEntry e) →
      Reaches (initListHead m e) (s.initEntry e hf)
  | add {m s new place} : Reaches m s → (hf : s.FreeEntry new) → s.Place place →
      Reaches (listAdd m new place) (s.addAfter new place hf)
  | addTail {m s new place} : Reaches m s → (hf : s.FreeEntry new) → s.Place place →
      Reaches (listAddTail m new place) (s.addBefore new place hf)
  | delete {m s e} : Reaches m s → (he : s.Linked e ∨ s.loose e) →
      Reaches (listDelInit m e) (s.remove e (s.seq_none_of_entry he))

/-- The memory holds a ring for every sequence, and loose entries are alone. -/
structure Holds (m : Memory α) (s : Lists α) : Prop where
  ring : ∀ {h xs}, s.seq h = some xs → m.Ring h xs
  alone : ∀ {e}, s.loose e → m.next e = e ∧ m.prev e = e

omit [DecidableEq α] in
private theorem Holds.owner_next {m : Memory α} {s : Lists α} (hm : Holds m s) {g h a : α}
    {xs ys : List α} (hg : s.seq g = some xs) (hh : s.seq h = some ys) (ha : a ∈ g :: xs)
    (hne : h ≠ g) : a ∉ h :: ys ∧ m.next a ∉ h :: ys ∧ m.prev a ∉ h :: ys := by
  have hx : ∀ b ∈ g :: xs, b ∉ h :: ys := fun b hb hc =>
    hne (s.owner_unique hh hg (owns_iff_mem.mpr hc) (owns_iff_mem.mpr hb))
  exact ⟨hx a ha, hx _ ((hm.ring hg).next_mem ha).1, hx _ ((hm.ring hg).prev_mem ha).1⟩

omit [DecidableEq α] in
private theorem Holds.loose_next {m : Memory α} {s : Lists α} (hm : Holds m s) {g a e : α}
    {xs : List α} (hg : s.seq g = some xs) (ha : a ∈ g :: xs) (hl : s.loose e) :
    e ≠ a ∧ e ≠ m.next a ∧ e ≠ m.prev a := by
  have hx : ∀ b ∈ g :: xs, e ≠ b := fun b hb he => s.loose_not_mem hl hg (he ▸ hb)
  exact ⟨hx a ha, hx _ ((hm.ring hg).next_mem ha).1, hx _ ((hm.ring hg).prev_mem ha).1⟩

private theorem Holds.initHead {m : Memory α} {s : Lists α} (hm : Holds m s) {h : α}
    (hf : s.FreeHead h) : Holds (initListHead m h) (s.initHead h hf) where
  ring {g xs} hs := by
    by_cases hg : g = h
    · subst hg
      have hx : xs = [] := by simpa [Lists.initHead, eq_comm] using hs
      exact hx ▸ initListHead_ring m g
    · have hs' : s.seq g = some xs := by simpa [Lists.initHead, hg] using hs
      refine initListHead_other (hm.ring hs') ?_
      rw [List.mem_cons, not_or]
      exact ⟨Ne.symm hg, hf.1 g xs hs'⟩
  alone {e} hl := by
    have ha := hm.alone hl.1
    simpa [initListHead, setNext, setPrev, hl.2] using ha

private theorem Holds.initEntry {m : Memory α} {s : Lists α} (hm : Holds m s) {e : α}
    (hf : s.FreeEntry e) : Holds (initListHead m e) (s.initEntry e hf) where
  ring {h xs} hs := initListHead_other (hm.ring hs) (hf.not_mem hs)
  alone {a} hl := by
    by_cases ha : a = e
    · subst ha; exact initListHead_alone m a
    · have hb := hm.alone (hl.resolve_right ha)
      simpa [initListHead, setNext, setPrev, ha] using hb

theorem Holds.listAdd {m : Memory α} {s : Lists α} (hm : Holds m s) {new place : α}
    (hf : s.FreeEntry new) (hp : s.Place place) :
    Holds (listAdd m new place) (s.addAfter new place hf) := by
  obtain ⟨g, ys, hg, ho⟩ := hp.owner
  have hpm : place ∈ g :: ys := owns_iff_mem.mp ho
  constructor
  · intro h xs hs
    obtain ⟨xs, hx, rfl⟩ := Option.map_eq_some_iff.mp hs
    have hd := s.ring_nodup hx
    have hn := hf.not_mem hx
    by_cases hh : h = place
    · subst hh
      rw [putAfter_head]
      exact (hm.ring hx).insert_first hd hn
    by_cases hq : place ∈ xs
    · obtain ⟨l, r, rfl, hl⟩ := List.eq_append_cons_of_mem hq
      rw [putAfter_split hh hl]
      exact (hm.ring hx).insert_after hd hn
    · have hno : ¬ Owns place h xs := not_or.mpr ⟨hh, hq⟩
      rw [putAfter_other hno]
      have hne : h ≠ g := by
        rintro rfl
        obtain rfl : xs = ys := Option.some.inj (hx.symm.trans hg)
        exact hno ho
      obtain ⟨h1, h2, -⟩ := hm.owner_next hg hx hpm hne
      exact (hm.ring hx).insertBetween_other hn h1 h2
  · intro e hl
    obtain ⟨h1, h2, -⟩ := hm.loose_next hg hpm hl.1
    have ha := hm.alone hl.1
    simpa [RingList.listAdd, listAddInternal_eq, Links.insertBetween, h1, h2, hl.2] using ha

theorem Holds.listAddTail {m : Memory α} {s : Lists α} (hm : Holds m s) {new place : α}
    (hf : s.FreeEntry new) (hp : s.Place place) :
    Holds (listAddTail m new place) (s.addBefore new place hf) := by
  obtain ⟨g, ys, hg, ho⟩ := hp.owner
  have hpm : place ∈ g :: ys := owns_iff_mem.mp ho
  constructor
  · intro h xs hs
    obtain ⟨xs, hx, rfl⟩ := Option.map_eq_some_iff.mp hs
    have hd := s.ring_nodup hx
    have hn := hf.not_mem hx
    by_cases hh : h = place
    · subst hh
      rw [putBefore_head]
      exact (hm.ring hx).insert_last hd hn
    by_cases hq : place ∈ xs
    · obtain ⟨l, r, rfl, hl⟩ := List.eq_append_cons_of_mem hq
      rw [putBefore_split hh hl]
      exact (hm.ring hx).insert_before hd hn
    · have hno : ¬ Owns place h xs := not_or.mpr ⟨hh, hq⟩
      rw [putBefore_other hno]
      have hne : h ≠ g := by
        rintro rfl
        obtain rfl : xs = ys := Option.some.inj (hx.symm.trans hg)
        exact hno ho
      obtain ⟨h1, -, h3⟩ := hm.owner_next hg hx hpm hne
      exact (hm.ring hx).insertBetween_other hn h3 h1
  · intro e hl
    obtain ⟨h1, -, h3⟩ := hm.loose_next hg hpm hl.1
    have ha := hm.alone hl.1
    simpa [RingList.listAddTail, listAddInternal_eq, Links.insertBetween, h1, h3, hl.2] using ha

/-- Deleting a loose entry changes nothing at all. -/
private theorem listDelInit_loose {m : Memory α} {s : Lists α} (hm : Holds m s) {e : α}
    (hl : s.loose e) : RingList.listDelInit m e = m := by
  rw [listDelInit_eq]
  exact Links.unlink_of_alone (hm.alone hl).1 (hm.alone hl).2

theorem Holds.listDelInit {m : Memory α} {s : Lists α} (hm : Holds m s) {e : α}
    (he : s.Linked e ∨ s.loose e) :
    Holds (listDelInit m e) (s.remove e (s.seq_none_of_entry he)) := by
  rcases he with ⟨g, ys, hg, hem⟩ | hl
  · have hpm : e ∈ g :: ys := List.mem_cons_of_mem _ hem
    constructor
    · intro h xs hs
      obtain ⟨xs, hx, rfl⟩ := Option.map_eq_some_iff.mp hs
      rw [listDelInit_eq]
      by_cases hq : e ∈ xs
      · obtain ⟨l, r, rfl, hl⟩ := List.eq_append_cons_of_mem hq
        rw [List.erase_append_right _ hl, List.erase_cons_head]
        exact (hm.ring hx).unlink_mem (s.ring_nodup hx)
      · rw [List.erase_of_not_mem hq]
        have hne : h ≠ g := by
          rintro rfl
          obtain rfl : xs = ys := Option.some.inj (hx.symm.trans hg)
          exact hq hem
        obtain ⟨h1, h2, h3⟩ := hm.owner_next hg hx hpm hne
        exact (hm.ring hx).unlink_other h1 h2 h3
    · intro a hl
      rw [listDelInit_eq]
      by_cases ha : a = e
      · subst ha; exact m.unlink_self a
      · have hl' := hl.resolve_right ha
        obtain ⟨h1, h2, h3⟩ := hm.loose_next hg hpm hl'
        simpa [Links.unlink, h1, h2, h3] using hm.alone hl'
  · rw [listDelInit_loose hm hl]
    constructor
    · intro h xs hs
      obtain ⟨xs, hx, rfl⟩ := Option.map_eq_some_iff.mp hs
      rw [List.erase_of_not_mem (List.not_mem_of_not_mem_cons (s.loose_not_mem hl hx))]
      exact hm.ring hx
    · rintro a (ha | rfl)
      · exact hm.alone ha
      · exact hm.alone hl

/-- The invariant of every run. -/
private theorem Reaches.holds {m : Memory α} {s : Lists α} (hr : Reaches m s) : Holds m s := by
  induction hr with
  | start m => exact ⟨by simp [blank], by simp [blank]⟩
  | head _ hf ih => exact ih.initHead hf
  | entry _ hf ih => exact ih.initEntry hf
  | add _ hf hp ih => exact ih.listAdd hf hp
  | addTail _ hf hp ih => exact ih.listAddTail hf hp
  | delete _ he ih => exact ih.listDelInit he

def Traverses (m : Memory α) (h : α) (xs : List α) : Prop := ∀ fuel, xs.length < fuel →
  listForEach m h fuel = some xs ∧ listForEachPrev m h fuel = some xs.reverse

structure Observed (m : Memory α) (s : Lists α) : Prop where
  inverse : ∀ a, s.Initialised a → m.prev (m.next a) = a ∧ m.next (m.prev a) = a
  lists : ∀ h xs, s.seq h = some xs → (h :: xs).Nodup ∧ Traverses m h xs
  empty : ∀ h xs, s.seq h = some xs → (listEmpty m h = true ↔ xs = [])
  first : ∀ h xs e, s.seq h = some xs → (s.Linked e ∨ s.loose e) →
    (listIsFirst m e h = true ↔ xs.head? = some e)
  last : ∀ h xs e, s.seq h = some xs → (s.Linked e ∨ s.loose e) →
    (listIsLast m e h = true ↔ xs.getLast? = some e)

theorem Holds.traverses {m : Memory α} {s : Lists α} (hm : Holds m s) {h : α}
    {xs : List α} (hs : s.seq h = some xs) : Traverses m h xs := fun fuel hf =>
  ⟨(hm.ring hs).walk_next (s.head_not_mem hs) fuel hf,
    (hm.ring hs).walk_prev (s.head_not_mem hs) fuel hf⟩

omit [DecidableEq α] in
private theorem Holds.inverse {m : Memory α} {s : Lists α} (hm : Holds m s) {a : α}
    (ha : s.Initialised a) : m.prev (m.next a) = a ∧ m.next (m.prev a) = a := by
  rcases ha with hp | hl
  · obtain ⟨h, xs, hs, ho⟩ := hp.owner
    have hx := owns_iff_mem.mp ho
    exact ⟨((hm.ring hs).next_mem hx).2, ((hm.ring hs).prev_mem hx).2⟩
  · obtain ⟨hn, hp⟩ := hm.alone hl
    exact ⟨by rw [hn, hp], by rw [hp, hn]⟩

omit [DecidableEq α] in
/-- An entry whose neighbour is the head `h` is an entry of `h`'s list. -/
private theorem Holds.mem_of_neighbour {m : Memory α} {s : Lists α} (hm : Holds m s) {h e : α}
    {xs : List α} (hs : s.seq h = some xs) (he : s.Linked e ∨ s.loose e)
    (hn : m.next e = h ∨ m.prev e = h) : e ∈ xs := by
  rcases he with ⟨g, ys, hg, hem⟩ | hl
  · have hx : h ∈ g :: ys := by
      rcases hn with rfl | rfl
      · exact ((hm.ring hg).next_mem (List.mem_cons_of_mem _ hem)).1
      · exact ((hm.ring hg).prev_mem (List.mem_cons_of_mem _ hem)).1
    obtain rfl := s.owner_unique hs hg (.inl rfl) (owns_iff_mem.mpr hx)
    obtain rfl : xs = ys := Option.some.inj (hs.symm.trans hg)
    exact hem
  · obtain ⟨h1, h2⟩ := hm.alone hl
    rw [h1, h2, or_self] at hn
    exact absurd (by rw [hn]; simp) (s.loose_not_mem hl hs)

private theorem Holds.first {m : Memory α} {s : Lists α} (hm : Holds m s) {h e : α}
    {xs : List α} (hs : s.seq h = some xs) (he : s.Linked e ∨ s.loose e) :
    listIsFirst m e h = true ↔ xs.head? = some e := by
  rw [listIsFirst, decide_eq_true_iff]
  constructor
  · intro hp
    exact ((hm.ring hs).prev_eq_anchor (s.head_not_mem hs) (hm.mem_of_neighbour hs he (.inr hp))).mp hp
  · intro hx
    exact ((hm.ring hs).prev_eq_anchor (s.head_not_mem hs) (List.mem_of_mem_head? hx)).mpr hx

private theorem Holds.last {m : Memory α} {s : Lists α} (hm : Holds m s) {h e : α}
    {xs : List α} (hs : s.seq h = some xs) (he : s.Linked e ∨ s.loose e) :
    listIsLast m e h = true ↔ xs.getLast? = some e := by
  rw [listIsLast, decide_eq_true_iff]
  constructor
  · intro hn
    exact ((hm.ring hs).next_eq_anchor (s.head_not_mem hs) (hm.mem_of_neighbour hs he (.inl hn))).mp hn
  · intro hx
    exact ((hm.ring hs).next_eq_anchor (s.head_not_mem hs) (List.mem_of_mem_getLast? hx)).mpr hx

private theorem Holds.observed {m : Memory α} {s : Lists α} (hm : Holds m s) : Observed m s where
  inverse _ ha := hm.inverse ha
  lists _ _ hs := ⟨s.ring_nodup hs, hm.traverses hs⟩
  empty _ _ hs := by
    rw [listEmpty, decide_eq_true_iff]
    exact (hm.ring hs).next_anchor_self (s.head_not_mem hs)
  first _ _ _ hs he := hm.first hs he
  last _ _ _ hs he := hm.last hs he

/-- How an addition next to `place` changes the list of a head `h`. -/
def AddsAt (m : Memory α) (new place h : α) (xs : List α) : Prop :=
  (h = place → Traverses (listAdd m new place) h (new :: xs) ∧
    Traverses (listAddTail m new place) h (xs ++ [new])) ∧
  (∀ l r, xs = l ++ place :: r → Traverses (listAdd m new place) h (l ++ place :: new :: r) ∧
    Traverses (listAddTail m new place) h (l ++ new :: place :: r)) ∧
  (place ∉ h :: xs → Traverses (listAdd m new place) h xs ∧ Traverses (listAddTail m new place) h xs)

private theorem Reaches.adds {m : Memory α} {s : Lists α} (hr : Reaches m s) {new place h : α}
    {xs : List α} (hf : s.FreeEntry new) (hp : s.Place place) (hs : s.seq h = some xs) :
    AddsAt m new place h xs := by
  have ha : Traverses (listAdd m new place) h (putAfter place new h xs) :=
    (hr.add hf hp).holds.traverses (by rw [addAfter_seq, hs, Option.map_some])
  have hb : Traverses (listAddTail m new place) h (putBefore place new h xs) :=
    (hr.addTail hf hp).holds.traverses (by rw [addBefore_seq, hs, Option.map_some])
  refine ⟨?_, ?_, ?_⟩
  · rintro rfl
    exact ⟨by simpa using ha, by simpa using hb⟩
  · rintro l r rfl
    have hd := s.ring_nodup hs
    simp only [List.nodup_cons, List.nodup_append, List.mem_append, List.mem_cons, not_or] at hd
    have hl : place ∉ l := fun hx => hd.2.2.2 place hx place (.inl rfl) rfl
    rw [putAfter_split hd.1.2.1 hl] at ha
    rw [putBefore_split hd.1.2.1 hl] at hb
    exact ⟨ha, hb⟩
  · intro hx
    have hno : ¬ Owns place h xs := fun ho => hx (owns_iff_mem.mp ho)
    rw [putAfter_other hno] at ha
    rw [putBefore_other hno] at hb
    exact ⟨ha, hb⟩

private theorem Reaches.removes {m : Memory α} {s : Lists α} (hr : Reaches m s) {e h : α}
    {xs : List α} (he : s.Linked e ∨ s.loose e) (hs : s.seq h = some xs) :
    (∀ l r, xs = l ++ e :: r → Traverses (listDelInit m e) h (l ++ r)) ∧
    (e ∉ xs → Traverses (listDelInit m e) h xs) := by
  have hx : Traverses (listDelInit m e) h (xs.erase e) :=
    (hr.delete he).holds.traverses (by rw [remove_seq, hs, Option.map_some])
  refine ⟨?_, fun hn => by rwa [List.erase_of_not_mem hn] at hx⟩
  rintro l r rfl
  have hl : e ∉ l := fun hm => (List.nodup_append.mp (s.nodup hs)).2.2 e hm e (by simp) rfl
  rwa [List.erase_append_right _ hl, List.erase_cons_head] at hx

/-- In every reachable memory each head owns a finite sequence without repetition
that both directions list; additions put the entry next to the given place,
deletion takes out one entry and leaves it alone, and no other list changes. -/
theorem list_operations_refine_sequences {m : Memory α} {s : Lists α} (hr : Reaches m s) :
    Observed m s ∧
    (∀ new place, s.FreeEntry new → s.Place place →
      ∀ h xs, s.seq h = some xs → AddsAt m new place h xs) ∧
    (∀ e, (s.Linked e ∨ s.loose e) →
      (listDelInit m e).next e = e ∧ (listDelInit m e).prev e = e ∧
      (s.loose e → listDelInit m e = m) ∧
      ∀ h xs, s.seq h = some xs →
        (∀ l r, xs = l ++ e :: r → Traverses (listDelInit m e) h (l ++ r)) ∧
        (e ∉ xs → Traverses (listDelInit m e) h xs)) := by
  refine ⟨hr.holds.observed, fun new place hf hp h xs hs => hr.adds hf hp hs, ?_⟩
  intro e he
  have hu := m.unlink_self e
  exact ⟨hu.1, hu.2, listDelInit_loose hr.holds, fun h xs hs => hr.removes he hs⟩

/-- A head with two entries, built in a memory of arbitrary contents. -/
theorem two_entry_list_observed : ∃ (m : Memory Nat) (s : Lists Nat),
    Reaches m s ∧ s.seq 0 = some [1, 2] ∧ Observed m s := by
  have h0 : (blank : Lists Nat).FreeHead 0 := by simp [FreeHead, Unlinked, blank]
  have r0 := (Reaches.start (⟨fun _ => 7, fun _ => 7⟩ : Memory Nat)).head h0
  have h1 : (blank.initHead 0 h0).FreeEntry 1 := by
    simp [FreeEntry, Unlinked, blank, initHead, Function.update_apply]
  have r1 := r0.add h1 (.inl ⟨[], by simp [initHead]⟩ : (blank.initHead 0 h0).Place 0)
  have h2 : ((blank.initHead 0 h0).addAfter 1 0 h1).FreeEntry 2 := by
    simp [FreeEntry, Unlinked, blank, initHead, Function.update_apply]
  have r2 := r1.addTail h2 (.inl ⟨[1], by simp [initHead]⟩ : Place _ 0)
  exact ⟨_, _, r2, by simp [initHead], (list_operations_refine_sequences r2).1⟩

end CommonProject.RingList

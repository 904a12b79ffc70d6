import Mathlib.Data.List.Nodup
import Mathlib.Logic.Function.Basic

/-! What the lists are for: every head owns a sequence of entries, no entry is in
two sequences, and an operation changes one place of one sequence. -/
namespace CommonProject.RingList

section Places
variable {α : Type} [DecidableEq α]

def placeAfter (place new : α) : List α → List α
  | [] => []
  | b :: l => if b = place then b :: new :: l else b :: placeAfter place new l

def placeBefore (place new : α) : List α → List α
  | [] => []
  | b :: l => if b = place then new :: b :: l else b :: placeBefore place new l

private theorem placeAfter_of_not_mem {place new : α} {xs : List α} (h : place ∉ xs) :
    placeAfter place new xs = xs := by
  induction xs with
  | nil => rfl
  | cons b xs ih =>
    simp only [List.mem_cons, not_or] at h
    rw [placeAfter, if_neg (Ne.symm h.1), ih h.2]

private theorem placeBefore_of_not_mem {place new : α} {xs : List α} (h : place ∉ xs) :
    placeBefore place new xs = xs := by
  induction xs with
  | nil => rfl
  | cons b xs ih =>
    simp only [List.mem_cons, not_or] at h
    rw [placeBefore, if_neg (Ne.symm h.1), ih h.2]

private theorem placeAfter_append {place new : α} {l r : List α} (h : place ∉ l) :
    placeAfter place new (l ++ place :: r) = l ++ place :: new :: r := by
  induction l with
  | nil => simp [placeAfter]
  | cons b l ih =>
    simp only [List.mem_cons, not_or] at h
    rw [List.cons_append, placeAfter, if_neg (Ne.symm h.1), ih h.2, List.cons_append]

private theorem placeBefore_append {place new : α} {l r : List α} (h : place ∉ l) :
    placeBefore place new (l ++ place :: r) = l ++ new :: place :: r := by
  induction l with
  | nil => simp [placeBefore]
  | cons b l ih =>
    simp only [List.mem_cons, not_or] at h
    rw [List.cons_append, placeBefore, if_neg (Ne.symm h.1), ih h.2, List.cons_append]

private theorem placeAfter_perm {place new : α} {xs : List α} (h : place ∈ xs) :
    (placeAfter place new xs).Perm (new :: xs) := by
  obtain ⟨l, r, rfl, hl⟩ := List.eq_append_cons_of_mem h
  rw [placeAfter_append hl]
  exact (List.perm_middle.trans (.cons _ List.perm_middle)).trans
    ((List.Perm.swap _ _ _).trans (.cons _ List.perm_middle.symm))

private theorem placeBefore_perm {place new : α} {xs : List α} (h : place ∈ xs) :
    (placeBefore place new xs).Perm (new :: xs) := by
  obtain ⟨l, r, rfl, hl⟩ := List.eq_append_cons_of_mem h
  rw [placeBefore_append hl]
  exact List.perm_middle

end Places

/-- The sequences of the initialised heads and the initialised entries that are
in none of them. -/
structure Lists (α : Type) where
  seq : α → Option (List α)
  loose : α → Prop
  nodup : ∀ {h xs}, seq h = some xs → xs.Nodup
  apart : ∀ {g h xs ys a}, seq g = some xs → seq h = some ys → a ∈ xs → a ∈ ys → g = h
  entry : ∀ {h xs a}, seq h = some xs → a ∈ xs → seq a = none ∧ ¬ loose a
  loose_entry : ∀ {e}, loose e → seq e = none

namespace Lists
variable {α : Type}

def Unlinked (s : Lists α) (a : α) : Prop := ∀ h xs, s.seq h = some xs → a ∉ xs

def Linked (s : Lists α) (a : α) : Prop := ∃ h xs, s.seq h = some xs ∧ a ∈ xs

/-- A cell that may be initialised as a head: linked with no other cell. -/
def FreeHead (s : Lists α) (h : α) : Prop := s.Unlinked h ∧ ∀ xs, s.seq h = some xs → xs = []

/-- A cell that may become an entry: no head, and linked with no other cell. -/
def FreeEntry (s : Lists α) (e : α) : Prop := s.Unlinked e ∧ s.seq e = none

def Place (s : Lists α) (place : α) : Prop := (∃ xs, s.seq place = some xs) ∨ s.Linked place

def Initialised (s : Lists α) (a : α) : Prop := s.Place a ∨ s.loose a

def blank : Lists α where
  seq _ := none
  loose _ := False
  nodup := by simp
  apart := by simp
  entry := by simp
  loose_entry := by simp

theorem head_not_mem (s : Lists α) {h : α} {xs : List α} (hs : s.seq h = some xs) : h ∉ xs :=
  fun hm => by simpa [hs] using (s.entry hs hm).1

theorem ring_nodup (s : Lists α) {h : α} {xs : List α} (hs : s.seq h = some xs) :
    (h :: xs).Nodup := List.nodup_cons.mpr ⟨s.head_not_mem hs, s.nodup hs⟩

/-- The list that `place` belongs to, as its head or as an entry. -/
def Owns (place h : α) (xs : List α) : Prop := h = place ∨ place ∈ xs

theorem owner_unique (s : Lists α) {place g h : α} {xs ys : List α} (hg : s.seq g = some xs)
    (hh : s.seq h = some ys) (ho : Owns place g xs) (ho' : Owns place h ys) : g = h := by
  rcases ho with rfl | ho <;> rcases ho' with rfl | ho'
  · rfl
  · simpa [hg] using (s.entry hh ho').1
  · simpa [hh] using (s.entry hg ho).1
  · exact s.apart hg hh ho ho'

theorem seq_none_of_entry (s : Lists α) {e : α} (he : s.Linked e ∨ s.loose e) : s.seq e = none := by
  rcases he with ⟨h, xs, hs, hm⟩ | hl
  · exact (s.entry hs hm).1
  · exact s.loose_entry hl

theorem owns_iff_mem {a h : α} {xs : List α} : Owns a h xs ↔ a ∈ h :: xs := by
  rw [Owns, List.mem_cons, eq_comm]

/-- A free entry is neither a head nor in a sequence. -/
theorem FreeEntry.not_mem {s : Lists α} {e h : α} {xs : List α} (hf : s.FreeEntry e)
    (hs : s.seq h = some xs) : e ∉ h :: xs := by
  rw [List.mem_cons]
  rintro (rfl | hm)
  · simpa [hs] using hf.2
  · exact hf.1 h xs hs hm

theorem loose_not_mem (s : Lists α) {e h : α} {xs : List α} (hl : s.loose e)
    (hs : s.seq h = some xs) : e ∉ h :: xs := by
  rw [List.mem_cons]
  rintro (rfl | hm)
  · simpa [hs] using s.loose_entry hl
  · exact (s.entry hs hm).2 hl

theorem Place.owner {s : Lists α} {place : α} (hp : s.Place place) :
    ∃ h xs, s.seq h = some xs ∧ Owns place h xs := by
  rcases hp with ⟨xs, hs⟩ | ⟨h, xs, hs, hm⟩
  · exact ⟨place, xs, hs, .inl rfl⟩
  · exact ⟨h, xs, hs, .inr hm⟩

variable [DecidableEq α]

def initHead (s : Lists α) (h : α) (hf : s.FreeHead h) : Lists α where
  seq := Function.update s.seq h (some [])
  loose a := s.loose a ∧ a ≠ h
  nodup {g xs} hs := by
    by_cases hg : g = h
    · simp_all
    · exact s.nodup (by simpa [hg] using hs)
  apart {g k xs ys a} hs ht hx hy := by
    by_cases hg : g = h
    · simp_all
    · by_cases hk : k = h
      · simp_all
      · exact s.apart (by simpa [hg] using hs) (by simpa [hk] using ht) hx hy
  entry {g xs a} hs hx := by
    by_cases hg : g = h
    · simp_all
    · have hs' : s.seq g = some xs := by simpa [hg] using hs
      have ha : a ≠ h := by rintro rfl; exact hf.1 g xs hs' hx
      have he := s.entry hs' hx
      exact ⟨by simpa [ha] using he.1, fun hl => he.2 hl.1⟩
  loose_entry {e} hl := by simpa [hl.2] using s.loose_entry hl.1

def initEntry (s : Lists α) (e : α) (hf : s.FreeEntry e) : Lists α where
  seq := s.seq
  loose a := s.loose a ∨ a = e
  nodup := s.nodup
  apart := s.apart
  entry {h xs a} hs hx := by
    refine ⟨(s.entry hs hx).1, ?_⟩
    rintro (hl | rfl)
    · exact (s.entry hs hx).2 hl
    · exact hf.1 h xs hs hx
  loose_entry {a} hl := hl.elim s.loose_entry fun h => h ▸ hf.2

/-- Add the free entry `new` to the list that owns `place`, in the order `put` gives. -/
def add (s : Lists α) (new place : α) (put : α → List α → List α) (hf : s.FreeEntry new)
    (hp : ∀ h xs, put h xs = xs ∨ Owns place h xs ∧ (put h xs).Perm (new :: xs)) : Lists α where
  seq h := (s.seq h).map (put h)
  loose a := s.loose a ∧ a ≠ new
  nodup {h xs} hs := by
    obtain ⟨ys, hy, rfl⟩ := Option.map_eq_some_iff.mp hs
    rcases hp h ys with he | ⟨-, he⟩
    · rw [he]; exact s.nodup hy
    · exact he.nodup_iff.mpr (List.nodup_cons.mpr ⟨hf.1 h ys hy, s.nodup hy⟩)
  apart {g h xs ys a} hs ht hx hy := by
    obtain ⟨us, hu, rfl⟩ := Option.map_eq_some_iff.mp hs
    obtain ⟨vs, hv, rfl⟩ := Option.map_eq_some_iff.mp ht
    have hfu := hf.1 g us hu
    have hfv := hf.1 h vs hv
    rcases hp g us with he | ⟨ho, he⟩ <;> rcases hp h vs with he' | ⟨ho', he'⟩
    · exact s.apart hu hv (he ▸ hx) (he' ▸ hy)
    · rw [he] at hx
      rcases List.mem_cons.mp (he'.mem_iff.mp hy) with rfl | hy
      · exact absurd hx hfu
      · exact s.apart hu hv hx hy
    · rw [he'] at hy
      rcases List.mem_cons.mp (he.mem_iff.mp hx) with rfl | hx
      · exact absurd hy hfv
      · exact s.apart hu hv hx hy
    · exact s.owner_unique hu hv ho ho'
  entry {h xs a} hs hx := by
    obtain ⟨ys, hy, rfl⟩ := Option.map_eq_some_iff.mp hs
    have hm : a = new ∨ a ∈ ys := by
      rcases hp h ys with he | ⟨-, he⟩
      · exact .inr (he ▸ hx)
      · exact List.mem_cons.mp (he.mem_iff.mp hx)
    rcases hm with rfl | ha
    · exact ⟨by simp [hf.2], fun hl => hl.2 rfl⟩
    · exact ⟨by simp [(s.entry hy ha).1], fun hl => (s.entry hy ha).2 hl.1⟩
  loose_entry {e} hl := by simp [s.loose_entry hl.1]

/-- Where `listAdd` puts `new` in the list of the head `h`: behind a head it
becomes the first entry. -/
def putAfter (place new h : α) (xs : List α) : List α :=
  if h = place then new :: xs else placeAfter place new xs

/-- Where `listAddTail` puts `new`: before a head it becomes the last entry. -/
def putBefore (place new h : α) (xs : List α) : List α :=
  if h = place then xs ++ [new] else placeBefore place new xs

@[simp] theorem putAfter_head (place new : α) (xs : List α) :
    putAfter place new place xs = new :: xs := if_pos rfl

@[simp] theorem putBefore_head (place new : α) (xs : List α) :
    putBefore place new place xs = xs ++ [new] := if_pos rfl

theorem putAfter_split {place new h : α} {l r : List α} (hh : h ≠ place) (hl : place ∉ l) :
    putAfter place new h (l ++ place :: r) = l ++ place :: new :: r := by
  rw [putAfter, if_neg hh, placeAfter_append hl]

theorem putBefore_split {place new h : α} {l r : List α} (hh : h ≠ place) (hl : place ∉ l) :
    putBefore place new h (l ++ place :: r) = l ++ new :: place :: r := by
  rw [putBefore, if_neg hh, placeBefore_append hl]

theorem putAfter_other {place new h : α} {xs : List α} (ho : ¬ Owns place h xs) :
    putAfter place new h xs = xs := by
  rw [Owns, not_or] at ho
  rw [putAfter, if_neg ho.1, placeAfter_of_not_mem ho.2]

theorem putBefore_other {place new h : α} {xs : List α} (ho : ¬ Owns place h xs) :
    putBefore place new h xs = xs := by
  rw [Owns, not_or] at ho
  rw [putBefore, if_neg ho.1, placeBefore_of_not_mem ho.2]

theorem putAfter_perm {place new h : α} {xs : List α} (ho : Owns place h xs) :
    (putAfter place new h xs).Perm (new :: xs) := by
  by_cases hh : h = place
  · subst hh; rw [putAfter_head]
  · rw [putAfter, if_neg hh]
    exact placeAfter_perm (ho.resolve_left hh)

theorem putAfter_cases (place new h : α) (xs : List α) : putAfter place new h xs = xs ∨
    Owns place h xs ∧ (putAfter place new h xs).Perm (new :: xs) := by
  by_cases ho : Owns place h xs
  · exact .inr ⟨ho, putAfter_perm ho⟩
  · exact .inl (putAfter_other ho)

theorem putBefore_perm {place new h : α} {xs : List α} (ho : Owns place h xs) :
    (putBefore place new h xs).Perm (new :: xs) := by
  by_cases hh : h = place
  · subst hh; rw [putBefore_head]; exact List.perm_append_singleton _ _
  · rw [putBefore, if_neg hh]
    exact placeBefore_perm (ho.resolve_left hh)

theorem putBefore_cases (place new h : α) (xs : List α) : putBefore place new h xs = xs ∨
    Owns place h xs ∧ (putBefore place new h xs).Perm (new :: xs) := by
  by_cases ho : Owns place h xs
  · exact .inr ⟨ho, putBefore_perm ho⟩
  · exact .inl (putBefore_other ho)

def addAfter (s : Lists α) (new place : α) (hf : s.FreeEntry new) : Lists α :=
  s.add new place (putAfter place new) hf (putAfter_cases place new)

def addBefore (s : Lists α) (new place : α) (hf : s.FreeEntry new) : Lists α :=
  s.add new place (putBefore place new) hf (putBefore_cases place new)

def remove (s : Lists α) (e : α) (he : s.seq e = none) : Lists α where
  seq h := (s.seq h).map (·.erase e)
  loose a := s.loose a ∨ a = e
  nodup {h xs} hs := by
    obtain ⟨ys, hy, rfl⟩ := Option.map_eq_some_iff.mp hs
    exact (s.nodup hy).erase e
  apart {g h xs ys a} hs ht hx hy := by
    obtain ⟨us, hu, rfl⟩ := Option.map_eq_some_iff.mp hs
    obtain ⟨vs, hv, rfl⟩ := Option.map_eq_some_iff.mp ht
    exact s.apart hu hv (List.mem_of_mem_erase hx) (List.mem_of_mem_erase hy)
  entry {h xs a} hs hx := by
    obtain ⟨ys, hy, rfl⟩ := Option.map_eq_some_iff.mp hs
    have hm := ((s.nodup hy).mem_erase_iff).mp hx
    have ha := s.entry hy hm.2
    exact ⟨by simp [ha.1], fun hl => hl.elim ha.2 hm.1⟩
  loose_entry {a} hl := by
    rcases hl with hl | rfl
    · simp [s.loose_entry hl]
    · simp [he]

/-- A loose entry is given up; its cell may hold anything. -/
def forget (s : Lists α) (e : α) : Lists α where
  seq := s.seq
  loose a := s.loose a ∧ a ≠ e
  nodup := s.nodup
  apart := s.apart
  entry hs hx := ⟨(s.entry hs hx).1, fun hl => (s.entry hs hx).2 hl.1⟩
  loose_entry hl := s.loose_entry hl.1

theorem remove_freeEntry (s : Lists α) (e : α) (he : s.seq e = none) :
    (s.remove e he).FreeEntry e := by
  refine ⟨fun h xs hs hx => ?_, by simp [remove, he]⟩
  obtain ⟨ys, hy, rfl⟩ := Option.map_eq_some_iff.mp hs
  exact ((s.nodup hy).mem_erase_iff.mp hx).1 rfl

/-- Other places stay places when an entry is removed or added. -/
theorem Place.remove {s : Lists α} {place e : α} (hp : s.Place place) (he : s.seq e = none)
    (hne : place ≠ e) : (s.remove e he).Place place := by
  rcases hp with ⟨xs, hs⟩ | ⟨h, xs, hs, hm⟩
  · exact .inl ⟨xs.erase e, by simp [Lists.remove, hs]⟩
  · exact .inr ⟨h, xs.erase e, by simp [Lists.remove, hs], (List.mem_erase_of_ne hne).mpr hm⟩

omit [DecidableEq α] in
theorem Place.add {s : Lists α} {place new at' : α} {put : α → List α → List α}
    (hp : s.Place place) (hf : s.FreeEntry new)
    (hput : ∀ h xs, put h xs = xs ∨ Owns at' h xs ∧ (put h xs).Perm (new :: xs)) :
    (s.add new at' put hf hput).Place place := by
  rcases hp with ⟨xs, hs⟩ | ⟨h, xs, hs, hm⟩
  · exact .inl ⟨put place xs, by simp [Lists.add, hs]⟩
  · refine .inr ⟨h, put h xs, by simp [Lists.add, hs], ?_⟩
    rcases hput h xs with he | ⟨-, he⟩
    · rwa [he]
    · exact he.mem_iff.mpr (List.mem_cons_of_mem _ hm)

theorem Place.addAfter_new {s : Lists α} {new place : α} (hp : s.Place place)
    (hf : s.FreeEntry new) : (s.addAfter new place hf).Place new := by
  obtain ⟨h, xs, hs, ho⟩ := hp.owner
  exact .inr ⟨h, _, by simp [addAfter, Lists.add, hs], (putAfter_perm ho).mem_iff.mpr (.head _)⟩

theorem Place.addBefore_new {s : Lists α} {new place : α} (hp : s.Place place)
    (hf : s.FreeEntry new) : (s.addBefore new place hf).Place new := by
  obtain ⟨h, xs, hs, ho⟩ := hp.owner
  exact .inr ⟨h, _, by simp [addBefore, Lists.add, hs], (putBefore_perm ho).mem_iff.mpr (.head _)⟩

@[simp] theorem addAfter_seq (s : Lists α) (new place h : α) (hf : s.FreeEntry new) :
    (s.addAfter new place hf).seq h = (s.seq h).map (putAfter place new h) := rfl

@[simp] theorem addBefore_seq (s : Lists α) (new place h : α) (hf : s.FreeEntry new) :
    (s.addBefore new place hf).seq h = (s.seq h).map (putBefore place new h) := rfl

@[simp] theorem remove_seq (s : Lists α) (e h : α) (he : s.seq e = none) :
    (s.remove e he).seq h = (s.seq h).map (·.erase e) := rfl

end Lists
end CommonProject.RingList

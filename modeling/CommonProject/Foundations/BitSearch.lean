import Mathlib.Data.List.Basic
import Mathlib.Data.Nat.Find
import Mathlib.Order.Lattice

/-! Searching the bits of a sequence of words, one by one and a word at a time. -/
namespace CommonProject.Foundations.BitSearch

section Search
variable {p q : Nat → Bool} {start stop r : Nat}

/-- The first position from `start` on that passes the test, or `stop`. -/
def search (p : Nat → Bool) (start stop : Nat) : Nat :=
  ((List.range' start (stop - start)).find? p).getD stop

def members (p : Nat → Bool) (start stop : Nat) : List Nat :=
  (List.range' start (stop - start)).filter p

theorem search_eq_stop (h : ∀ i, start ≤ i → i < stop → p i = false) :
    search p start stop = stop := by
  have hnone : (List.range' start (stop - start)).find? p = none := by
    rw [List.find?_eq_none]
    intro i hi
    obtain ⟨hle, hlt⟩ := List.mem_range'_1.mp hi
    simp [h i hle (by omega)]
  rw [search, hnone, Option.getD_none]

private theorem search_eq_self (hlt : start < stop) (h : p start = true) :
    search p start stop = start := by
  obtain ⟨k, hk⟩ := Nat.exists_eq_add_of_lt hlt
  rw [search, show stop - start = k + 1 by omega, List.range'_succ, List.find?_cons_of_pos h,
    Option.getD_some]

private theorem search_succ (h : p start = false) :
    search p start stop = search p (start + 1) stop := by
  by_cases hlt : start < stop
  · obtain ⟨k, hk⟩ := Nat.exists_eq_add_of_lt hlt
    rw [search, search, show stop - start = k + 1 by omega, List.range'_succ,
      List.find?_cons_of_neg (by simp [h]), show stop - (start + 1) = k by omega]
  · rw [search_eq_stop (fun i _ _ => by omega), search_eq_stop (fun i _ _ => by omega)]

/-- Positions that fail the test can be skipped. -/
theorem search_skip (mid : Nat) (hle : start ≤ mid) (h : ∀ i, start ≤ i → i < mid → p i = false) :
    search p start stop = search p mid stop := by
  induction mid, hle using Nat.le_induction with
  | base => rfl
  | succ mid hle ih =>
    rw [ih fun i hi hlt => h i hi (hlt.trans (Nat.lt_succ_self mid)),
      search_succ (h mid hle (Nat.lt_succ_self mid))]

theorem search_eq_first (hle : start ≤ r) (hlt : r < stop) (hr : p r = true)
    (h : ∀ i, start ≤ i → i < r → p i = false) : search p start stop = r := by
  rw [search_skip r hle h, search_eq_self hlt hr]

/-- The search finds the least position, or there is none. -/
theorem search_spec (p : Nat → Bool) (start stop : Nat) :
    (start ≤ search p start stop ∧ search p start stop < stop ∧ p (search p start stop) = true ∧
      ∀ i, start ≤ i → i < search p start stop → p i = false) ∨
    (search p start stop = stop ∧ ∀ i, start ≤ i → i < stop → p i = false) := by
  by_cases hex : ∃ i, start ≤ i ∧ i < stop ∧ p i = true
  · obtain ⟨hle, hlt, hp⟩ := Nat.find_spec hex
    have hmin : ∀ i, start ≤ i → i < Nat.find hex → p i = false := by
      intro i hi hlt'
      have hno := Nat.find_min hex hlt'
      by_contra hp'
      exact hno ⟨hi, hlt'.trans hlt, by simpa using hp'⟩
    rw [search_eq_first hle hlt hp hmin]
    exact .inl ⟨hle, hlt, hp, hmin⟩
  · have hnone : ∀ i, start ≤ i → i < stop → p i = false := by
      intro i hi hlt
      by_contra hp
      exact hex ⟨i, hi, hlt, by simpa using hp⟩
    exact .inr ⟨search_eq_stop hnone, hnone⟩

theorem search_le (p : Nat → Bool) (start stop : Nat) : search p start stop ≤ stop := by
  rcases search_spec p start stop with ⟨-, hlt, -⟩ | ⟨hstop, -⟩
  · exact hlt.le
  · exact hstop.le

theorem search_congr (h : ∀ i, start ≤ i → i < stop → p i = q i) :
    search p start stop = search q start stop := by
  rcases search_spec q start stop with ⟨hle, hlt, hq, hmin⟩ | ⟨hstop, hnone⟩
  · refine search_eq_first hle hlt ((h _ hle hlt).trans hq) fun i hi hlt' => ?_
    rw [h i hi (hlt'.trans hlt), hmin i hi hlt']
  · rw [hstop]
    exact search_eq_stop fun i hi hlt => (h i hi hlt).trans (hnone i hi hlt)

private theorem members_skip (mid : Nat) (hle : start ≤ mid) (hmid : mid ≤ stop)
    (h : ∀ i, start ≤ i → i < mid → p i = false) : members p start stop = members p mid stop := by
  obtain ⟨a, rfl⟩ := Nat.exists_eq_add_of_le hle
  obtain ⟨b, rfl⟩ := Nat.exists_eq_add_of_le hmid
  have hnil : (List.range' start a).filter p = [] := by
    rw [List.filter_eq_nil_iff]
    intro i hi
    obtain ⟨hi, hlt⟩ := List.mem_range'_1.mp hi
    simp [h i hi hlt]
  rw [members, members, show start + a + b - start = a + b by omega,
    show start + a + b - (start + a) = b by omega, ← List.range'_append_1, List.filter_append, hnil,
    List.nil_append]

/-- Searching on behind each find lists the positions that pass. -/
theorem members_eq (p : Nat → Bool) (start stop : Nat) : members p start stop =
    if search p start stop < stop then
      search p start stop :: members p (search p start stop + 1) stop
    else [] := by
  rcases search_spec p start stop with ⟨hle, hlt, hp, hmin⟩ | ⟨hstop, hnone⟩
  · rw [if_pos hlt, members_skip _ hle hlt.le hmin]
    obtain ⟨k, hk⟩ := Nat.exists_eq_add_of_lt hlt
    rw [members, members, show stop - search p start stop = k + 1 by omega, List.range'_succ,
      List.filter_cons_of_pos hp, show stop - (search p start stop + 1) = k by omega]
  · rw [if_neg (by omega), members, List.filter_eq_nil_iff]
    intro i hi
    obtain ⟨hle, hlt⟩ := List.mem_range'_1.mp hi
    simp [hnone i hle (by omega)]

end Search

section Words
variable {w : Nat}

def bitAt (words : List (BitVec w)) (i : Nat) : Bool :=
  ((words[i / w]?).getD 0#w).getLsbD (i % w)

private theorem bitAt_of_getElem? {words : List (BitVec w)} {i : Nat} {x : BitVec w}
    (h : words[i / w]? = some x) : bitAt words i = x.getLsbD (i % w) := by
  rw [bitAt, h, Option.getD_some]

theorem bitAt_take {words : List (BitVec w)} {n i : Nat} (h : i / w < n) :
    bitAt (words.take n) i = bitAt words i := by
  rw [bitAt, bitAt, List.getElem?_take_of_lt h]

theorem bitAt_replicate (n i : Nat) : bitAt (List.replicate n 0#w) i = false := by
  rw [bitAt, List.getElem?_replicate]
  split <;> exact BitVec.getLsbD_zero

/-- Only the bits of the word that is stored change. -/
theorem bitAt_set {words : List (BitVec w)} {k : Nat} (hk : k < words.length) (x : BitVec w)
    (i : Nat) : bitAt (words.set k x) i =
      if i / w = k then x.getLsbD (i % w) else bitAt words i := by
  split
  case isTrue hi =>
    subst hi
    exact bitAt_of_getElem? (List.getElem?_set_self hk)
  case isFalse hi => rw [bitAt, bitAt, List.getElem?_set_ne (Ne.symm hi)]

structure Lowest (x : BitVec w) (n : Nat) : Prop where
  bit : x.getLsbD n = true
  below : ∀ i < n, x.getLsbD i = false

variable {x : BitVec w} {n : Nat}

theorem Lowest.lt (h : Lowest x n) : n < w := BitVec.lt_of_getLsbD h.bit

theorem exists_lowest (hx : x ≠ 0#w) : ∃ n, Lowest x n := by
  have hex : ∃ i, x.getLsbD i = true := by
    by_contra hno
    refine hx (BitVec.eq_of_getLsbD_eq fun i _ => ?_)
    rw [BitVec.getLsbD_zero]
    by_contra hi
    exact hno ⟨i, by simpa using hi⟩
  exact ⟨Nat.find hex, Nat.find_spec hex, fun i hi => by simpa using Nat.find_min hex hi⟩

/-- The lowest bit is above the mask exactly when the masked word is zero. -/
theorem Lowest.and_mask_eq_zero (h : Lowest x n) {mask : BitVec w} {k : Nat}
    (hmask : ∀ i < w, mask.getLsbD i = decide (i < k)) : x &&& mask = 0#w ↔ k ≤ n := by
  constructor
  · intro hzero
    by_contra hlt
    have hbit : (x &&& mask).getLsbD n = true := by
      rw [BitVec.getLsbD_and, h.bit, hmask n h.lt]
      simpa using hlt
    rw [hzero, BitVec.getLsbD_zero] at hbit
    cases hbit
  · intro hle
    refine BitVec.eq_of_getLsbD_eq fun i hi => ?_
    rw [BitVec.getLsbD_and, hmask i hi, BitVec.getLsbD_zero]
    by_cases hik : i < k
    · rw [h.below i (hik.trans_le hle), Bool.false_and]
    · simp [hik]

theorem Lowest.ushiftRight (h : Lowest x n) {k : Nat} (hk : k ≤ n) : Lowest (x >>> k) (n - k) := by
  refine ⟨?_, fun i hi => ?_⟩
  · rw [BitVec.getLsbD_ushiftRight, Nat.add_sub_cancel' hk, h.bit]
  · rw [BitVec.getLsbD_ushiftRight, h.below _ (by omega)]

end Words
end CommonProject.Foundations.BitSearch

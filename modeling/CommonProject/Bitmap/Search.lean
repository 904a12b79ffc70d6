import Mathlib.Algebra.Order.Ring.Nat
import CommonProject.Bitmap.Basic

/-! The word-wise search finds what a search bit by bit does. -/
namespace CommonProject.Bitmap
open Foundations.BitSearch

section FirstBit
variable {word : Word} {n : Nat} {s : Word × Word}

/-- One test of `__ffs`: the first `k` bits are skipped if they are 0. -/
def half (k : Nat) (mask : Word) (s : Word × Word) : Word × Word :=
  if s.2 &&& mask = 0#64 then (s.1 + BitVec.ofNat 64 k, s.2 >>> k) else s

private theorem ffs_eq (word : Word) :
    ffs word = (half 1 0x1#64 (half 2 0x3#64 (half 4 0xf#64 (half 8 0xff#64
    (half 16 0xffff#64 (half 32 0xffffffff#64 (0#64, word))))))).1 := by
  rw [half, apply_ite Prod.fst]
  rfl

private theorem half_spec (k : Nat) (mask : Word) (h : Lowest s.2 n) (hn : n < k + k)
    (hmask : ∀ i < 64, mask.getLsbD i = decide (i < k)) :
    ∃ m < k, Lowest (half k mask s).2 m ∧
      (half k mask s).1 + BitVec.ofNat 64 m = s.1 + BitVec.ofNat 64 n := by
  rw [half]
  by_cases hk : k ≤ n
  · rw [if_pos ((h.and_mask_eq_zero hmask).mpr hk)]
    refine ⟨n - k, by omega, h.ushiftRight hk, ?_⟩
    rw [BitVec.add_assoc, ← BitVec.ofNat_add, Nat.add_sub_cancel' hk]
  · rw [if_neg (mt (h.and_mask_eq_zero hmask).mp hk)]
    exact ⟨n, by omega, h, rfl⟩

/-- `__ffs` is the number of the lowest bit. -/
private theorem ffs_spec (h : Lowest word n) : ffs word = BitVec.ofNat 64 n := by
  obtain ⟨n₁, h₁, hl₁, he₁⟩ :=
    half_spec (s := (0#64, word)) 32 0xffffffff#64 h h.lt (by decide)
  obtain ⟨n₂, h₂, hl₂, he₂⟩ := half_spec 16 0xffff#64 hl₁ h₁ (by decide)
  obtain ⟨n₃, h₃, hl₃, he₃⟩ := half_spec 8 0xff#64 hl₂ h₂ (by decide)
  obtain ⟨n₄, h₄, hl₄, he₄⟩ := half_spec 4 0xf#64 hl₃ h₃ (by decide)
  obtain ⟨n₅, h₅, hl₅, he₅⟩ := half_spec 2 0x3#64 hl₄ h₄ (by decide)
  obtain ⟨n₆, h₆, -, he₆⟩ := half_spec 1 0x1#64 hl₅ h₅ (by decide)
  obtain rfl : n₆ = 0 := Nat.lt_one_iff.mp h₆
  rw [he₅, he₄, he₃, he₂, he₁, BitVec.zero_add] at he₆
  rw [ffs_eq, ← he₆]
  exact (BitVec.add_zero _).symm

end FirstBit

section Fetch
variable {addr : Words}

theorem toNat_bitWord (nr : Word) : (bitWord nr).toNat = nr.toNat / 64 := BitVec.toNat_udiv

theorem load_eq {i : Word} (h : i.toNat < addr.length) :
    load addr i = pure ((addr[i.toNat]?).getD 0#64) := by
  rw [load, List.getElem?_eq_getElem h, Option.getD_some]

theorem getLsbD_load (addr : Words) (k : Nat) {j : Nat} (hj : j < 64) :
    ((addr[k]?).getD 0#64).getLsbD j = bitAt addr (64 * k + j) := by
  rw [bitAt, show (64 * k + j) / 64 = k by omega, show (64 * k + j) % 64 = j by omega]

def selected (addr1 : Words) (addr2 : Option Words) (invert : Word) (i : Nat) : Bool :=
  (bitAt addr1 i && addr2.elim true fun addr2 => bitAt addr2 i) ^^ invert.getLsbD (i % 64)

private theorem fetch_spec (addr1 : Words) (addr2 : Option Words) (start invert : Word)
    (h1 : start.toNat / 64 < addr1.length) (h2 : ∀ a ∈ addr2, start.toNat / 64 < a.length) :
    ∃ w, fetch addr1 addr2 start invert = .ok w ∧
      ∀ j < 64, w.getLsbD j = selected addr1 addr2 invert (64 * (start.toNat / 64) + j) := by
  rw [← toNat_bitWord] at h1 h2 ⊢
  have hmod : ∀ j < 64, (64 * (bitWord start).toNat + j) % 64 = j := fun j hj => by omega
  cases addr2 with
  | none =>
    refine ⟨_, by rw [fetch, load_eq h1]; rfl, fun j hj => ?_⟩
    rw [BitVec.getLsbD_xor, getLsbD_load addr1 _ hj, selected, hmod j hj, Option.elim_none,
      Bool.and_true]
  | some addr2 =>
    refine ⟨_, by rw [fetch, load_eq h1]; simp only [pure_bind, load_eq (h2 _ rfl)]; rfl,
      fun j hj => ?_⟩
    rw [BitVec.getLsbD_xor, BitVec.getLsbD_and, getLsbD_load addr1 _ hj, getLsbD_load addr2 _ hj,
      selected, hmod j hj, Option.elim_some]

end Fetch

section Loop
variable {addr1 : Words} {addr2 : Option Words} {nbits invert tmp : Word} {fuel k : Nat}
  {p : Nat → Bool}

/-- From word `k` on the loop finds the first bit, where `tmp` holds the bits of this word and the
later words are as they are in memory. -/
private theorem findLoop_spec (hn : nbits.toNat ≤ 2 ^ 64 - 64)
    (h1 : (nbits.toNat + 63) / 64 ≤ addr1.length)
    (h2 : ∀ a ∈ addr2, (nbits.toNat + 63) / 64 ≤ a.length) (hk : 64 * k < nbits.toNat)
    (htmp : ∀ j < 64, tmp.getLsbD j = p (64 * k + j))
    (hp : ∀ i, 64 * (k + 1) ≤ i → p i = selected addr1 addr2 invert i)
    (hfuel : nbits.toNat / 64 < k + fuel) :
    findLoop addr1 addr2 nbits invert fuel (BitVec.ofNat 64 (64 * k)) tmp =
      .ok (BitVec.ofNat 64 (search p (64 * k) nbits.toNat)) := by
  induction fuel generalizing k tmp p with
  | zero => omega
  | succ fuel ih =>
    rw [findLoop]
    split
    case isTrue hzero =>
      have hskip : search p (64 * k) nbits.toNat = search p (64 * (k + 1)) nbits.toNat := by
        refine search_skip _ (by omega) fun i hi hlt => ?_
        have hbit := htmp (i - 64 * k) (by omega)
        rw [hzero, BitVec.getLsbD_zero, Nat.add_sub_cancel' hi] at hbit
        exact hbit.symm
      have hnext : BitVec.ofNat 64 (64 * k) + bitsPerLong = BitVec.ofNat 64 (64 * (k + 1)) := by
        rw [bitsPerLong, ← BitVec.ofNat_add, Nat.mul_succ]
      have hnat : (BitVec.ofNat 64 (64 * (k + 1))).toNat = 64 * (k + 1) := by
        rw [BitVec.toNat_ofNat, Nat.mod_eq_of_lt (by omega)]
      simp only [hnext, hskip]
      split
      case isTrue hend =>
        have hle : nbits.toNat ≤ 64 * (k + 1) := by
          rw [ge_iff_le, BitVec.le_def, hnat] at hend
          exact hend
        rw [search_eq_stop fun i hi hlt => absurd hlt (by omega), BitVec.ofNat_toNat,
          BitVec.setWidth_eq]
        rfl
      case isFalse hend =>
        have hlt : 64 * (k + 1) < nbits.toNat := by
          rw [ge_iff_le, BitVec.le_def, hnat] at hend
          omega
        have hdiv : (BitVec.ofNat 64 (64 * (k + 1))).toNat / 64 = k + 1 := by omega
        obtain ⟨w, hw, hbits⟩ := fetch_spec addr1 addr2 (BitVec.ofNat 64 (64 * (k + 1))) invert
          (by omega) fun a ha => by have := h2 a ha; omega
        rw [hdiv] at hbits
        simp only [hw]
        refine ih hlt (fun j hj => ?_) (fun i hi => hp i (by omega)) (by omega)
        rw [hbits j hj, hp _ (by omega)]
    case isFalse hne =>
      obtain ⟨n, hlow⟩ := exists_lowest hne
      have hn64 := hlow.lt
      have hbelow : ∀ i, 64 * k ≤ i → i < 64 * k + n → p i = false := by
        intro i hi hlt
        have hbit := hlow.below (i - 64 * k) (by omega)
        rw [htmp _ (by omega), Nat.add_sub_cancel' hi] at hbit
        exact hbit
      have hnat : (BitVec.ofNat 64 (64 * k + n)).toNat = 64 * k + n := by
        rw [BitVec.toNat_ofNat, Nat.mod_eq_of_lt (by omega)]
      rw [ffs_spec hlow, ← BitVec.ofNat_add]
      split
      case isTrue hlt =>
        rw [BitVec.lt_def, hnat] at hlt
        have hbit : p (64 * k + n) = true := by rw [← htmp n hn64, hlow.bit]
        rw [search_eq_first (Nat.le_add_right ..) hlt hbit hbelow]
        rfl
      case isFalse hge =>
        rw [BitVec.lt_def, hnat] at hge
        rw [search_eq_stop fun i hi hlt => hbelow i hi (by omega), BitVec.ofNat_toNat,
          BitVec.setWidth_eq]
        rfl

end Loop

section Entry
variable {addr1 : Words} {addr2 : Option Words} {nbits : Word} {fuel : Nat}

theorem toNat_and_last (x : Word) : (x &&& (bitsPerLong - 1)).toNat = x.toNat % 64 := by
  rw [BitVec.toNat_and]
  exact Nat.and_two_pow_sub_one_eq_mod x.toNat 6

private theorem getLsbD_firstWordMask (start : Word) {j : Nat} (hj : j < 64) :
    (bitmapFirstWordMask start).getLsbD j = decide (start.toNat % 64 ≤ j) := by
  rw [bitmapFirstWordMask, BitVec.shiftLeft_eq', BitVec.getLsbD_shiftLeft, toNat_and_last,
    BitVec.getLsbD_not, BitVec.getLsbD_zero]
  by_cases hle : start.toNat % 64 ≤ j
  · simp [hj, hle, Nat.lt_of_le_of_lt (Nat.sub_le ..) hj]
  · simp [hj, hle]

private theorem roundDown_eq (start : Word) :
    roundDown start bitsPerLong = BitVec.ofNat 64 (64 * (start.toNat / 64)) := by
  refine BitVec.eq_of_getLsbD_eq fun i hi => ?_
  have hlast : (bitsPerLong - 1).getLsbD i = decide (i < 6) := by
    revert i
    decide
  have hbit : (64 * (start.toNat / 64)).testBit i = (decide (6 ≤ i) && start.getLsbD i) := by
    rw [show 64 * (start.toNat / 64) = 2 ^ 6 * (start.toNat / 2 ^ 6) from rfl,
      Nat.testBit_two_pow_mul, Nat.testBit_div_two_pow]
    by_cases h6 : 6 ≤ i
    · simp [h6, BitVec.getLsbD]
    · simp [h6]
  rw [roundDown, BitVec.getLsbD_and, BitVec.getLsbD_not, hlast, BitVec.getLsbD_ofNat, hbit]
  by_cases h6 : 6 ≤ i
  · simp [hi, h6, not_lt.mpr h6]
  · simp [hi, h6, not_le.mp h6]

/-- `_find_next_bit` returns the first selected bit. -/
private theorem findNextBitIn_eq (start invert : Word) (hn : nbits.toNat ≤ 2 ^ 64 - 64)
    (h1 : (nbits.toNat + 63) / 64 ≤ addr1.length)
    (h2 : ∀ a ∈ addr2, (nbits.toNat + 63) / 64 ≤ a.length) (hfuel : nbits.toNat / 64 < fuel) :
    findNextBitIn fuel addr1 addr2 nbits start invert =
      .ok (BitVec.ofNat 64 (search (selected addr1 addr2 invert) start.toNat nbits.toNat)) := by
  rw [findNextBitIn]
  split
  case isTrue hend =>
    rw [ge_iff_le, BitVec.le_def] at hend
    rw [search_eq_stop fun i hi hlt => absurd hlt (by omega), BitVec.ofNat_toNat,
      BitVec.setWidth_eq]
    rfl
  case isFalse hend =>
    rw [ge_iff_le, BitVec.le_def, not_le] at hend
    let p : Nat → Bool := fun i => decide (start.toNat ≤ i) && selected addr1 addr2 invert i
    obtain ⟨w, hw, hbits⟩ := fetch_spec addr1 addr2 start invert (by omega)
      fun a ha => by have := h2 a ha; omega
    have hp : ∀ i, start.toNat ≤ i → p i = selected addr1 addr2 invert i := fun i hi => by
      simp [p, hi]
    have hfirst : search p (64 * (start.toNat / 64)) nbits.toNat =
        search (selected addr1 addr2 invert) start.toNat nbits.toNat := by
      rw [search_skip start.toNat (by omega) fun i hi hlt => by simp [p, hlt]]
      exact search_congr fun i hi hlt => hp i hi
    rw [hw, ← hfirst]
    simp only [roundDown_eq]
    refine findLoop_spec hn h1 h2 (by omega) (fun j hj => ?_) (fun i hi => hp i (by omega))
      (by omega)
    have hle : start.toNat % 64 ≤ j ↔ start.toNat ≤ 64 * (start.toNat / 64) + j := by omega
    rw [BitVec.getLsbD_and, hbits j hj, getLsbD_firstWordMask start hj, Bool.and_comm]
    simp only [p, hle]

theorem toNat_search {p : Nat → Bool} {i : Nat} (nbits : Word) :
    (BitVec.ofNat 64 (search p i nbits.toNat)).toNat = search p i nbits.toNat := by
  have hle := search_le p i nbits.toNat
  rw [BitVec.toNat_ofNat, Nat.mod_eq_of_lt (by omega)]

private theorem selected_zero (addr : Words) : selected addr none 0#64 = bitAt addr := by
  funext i
  simp [selected]

private theorem selected_ones (addr : Words) :
    selected addr none (~~~0#64) = fun i => !bitAt addr i := by
  funext i
  have hlt := Nat.mod_lt i (by decide : 64 > 0)
  rw [selected, BitVec.getLsbD_not, BitVec.getLsbD_zero]
  simp [hlt]

theorem findNextBit_eq (start : Word) (hn : nbits.toNat ≤ 2 ^ 64 - 64)
    (h1 : (nbits.toNat + 63) / 64 ≤ addr1.length) (hfuel : nbits.toNat / 64 < fuel) :
    findNextBit fuel addr1 nbits start =
      .ok (BitVec.ofNat 64 (search (bitAt addr1) start.toNat nbits.toNat)) := by
  rw [findNextBit, findNextBitIn_eq start _ hn h1 (by simp) hfuel, selected_zero]

theorem findNextZeroBit_eq (start : Word) (hn : nbits.toNat ≤ 2 ^ 64 - 64)
    (h1 : (nbits.toNat + 63) / 64 ≤ addr1.length) (hfuel : nbits.toNat / 64 < fuel) :
    findNextZeroBit fuel addr1 nbits start =
      .ok (BitVec.ofNat 64 (search (fun i => !bitAt addr1 i) start.toNat nbits.toNat)) := by
  rw [findNextZeroBit, findNextBitIn_eq start _ hn h1 (by simp) hfuel, selected_ones]

/-- Only the words that hold the first `nbits` bits matter. -/
private theorem findNextBitIn_take (start invert : Word) (hn : nbits.toNat ≤ 2 ^ 64 - 64)
    (h1 : (nbits.toNat + 63) / 64 ≤ addr1.length)
    (h2 : ∀ a ∈ addr2, (nbits.toNat + 63) / 64 ≤ a.length) (hfuel : nbits.toNat / 64 < fuel) :
    findNextBitIn fuel (addr1.take ((nbits.toNat + 63) / 64))
        (addr2.map fun a => a.take ((nbits.toNat + 63) / 64)) nbits start invert =
      findNextBitIn fuel addr1 addr2 nbits start invert := by
  rw [findNextBitIn_eq start invert hn h1 h2 hfuel,
    findNextBitIn_eq start invert hn (by simp [h1]) _ hfuel]
  · rw [search_congr fun i _ hi => ?_]
    have hword : i / 64 < (nbits.toNat + 63) / 64 := by omega
    cases addr2 <;> simp [selected, bitAt_take hword]
  · intro a ha
    obtain ⟨b, hb, rfl⟩ := Option.map_eq_some_iff.mp ha
    simp [h2 b hb]

/-- The word-wise search comes to an end with what the search bit by bit finds, and does so where
only the words with the first `nbits` bits can be read. -/
theorem find_next_bit_eq_search (addr1 : Words) (addr2 : Option Words)
    (nbits start invert : Word) (fuel : Nat) (hn : nbits.toNat ≤ 2 ^ 64 - 64)
    (h1 : (nbits.toNat + 63) / 64 ≤ addr1.length) (h2 : ∀ a ∈ addr2, a.length = addr1.length)
    (hfuel : nbits.toNat / 64 < fuel) :
    (∃ r, findNextBitIn fuel addr1 addr2 nbits start invert = .ok r ∧
      r.toNat = search (selected addr1 addr2 invert) start.toNat nbits.toNat ∧
      findNextBitIn fuel (addr1.take ((nbits.toNat + 63) / 64))
        (addr2.map fun a => a.take ((nbits.toNat + 63) / 64)) nbits start invert = .ok r) ∧
    (∃ r, findNextBit fuel addr1 nbits start = .ok r ∧
      r.toNat = search (bitAt addr1) start.toNat nbits.toNat) ∧
    ∃ r, findNextZeroBit fuel addr1 nbits start = .ok r ∧
      r.toNat = search (fun i => !bitAt addr1 i) start.toNat nbits.toNat := by
  have h2' : ∀ a ∈ addr2, (nbits.toNat + 63) / 64 ≤ a.length := fun a ha => (h2 a ha) ▸ h1
  have hfind := findNextBitIn_eq start invert hn h1 h2' hfuel
  refine ⟨⟨_, hfind, toNat_search nbits, ?_⟩, ⟨_, findNextBit_eq start hn h1 hfuel, toNat_search nbits⟩,
    ⟨_, findNextZeroBit_eq start hn h1 hfuel, toNat_search nbits⟩⟩
  rw [findNextBitIn_take start invert hn h1 h2' hfuel, hfind]

/-- The last word is partial, and its set bits are past the end. -/
theorem find_next_bit_past_end : findNextZeroBit 3 [~~~0#64, 0x3#64, 0x8#64] 130#64 64#64 =
      .ok 66#64 ∧
    ∃ r, findNextBit 3 [~~~0#64, 0x3#64, 0x8#64] 130#64 66#64 = .ok r ∧
      r.toNat = search (bitAt [~~~0#64, 0x3#64, 0x8#64]) 66 130 :=
  ⟨by decide, (find_next_bit_eq_search [~~~0#64, 0x3#64, 0x8#64] none 130#64 66#64 0#64 3 (by decide)
    (by decide) (by simp) (by decide)).2.1⟩

end Entry
end CommonProject.Bitmap

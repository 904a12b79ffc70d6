import CommonProject.Bitmap.Sets

/-! The size of the memory that `bitmap_alloc` asks for. -/
namespace CommonProject.Bitmap

def divRoundUp (n d : Word) : Word := (n + d - 1) / d

def bitsToLongs (nr : Word) : Word := divRoundUp nr bitsPerLong

def sizeofUnsignedLong : Word := 8#64

/-- The `calloc` of the C library: it fails, or it returns the words of a region of zeros that is as
large as it was asked for. -/
structure Calloc where
  call : Word → Word → Option Words
  zeroed : ∀ {nmemb size addr}, call nmemb size = some addr →
    nmemb.toNat * size.toNat < 18446744073709551616 ∧
    addr = List.replicate (nmemb.toNat * size.toNat / 8) 0#64

def bitmapAlloc (calloc : Calloc) (nbits : Word) : Option Words :=
  calloc.call 1#64 (bitsToLongs nbits * sizeofUnsignedLong)

/-- All accesses to the first `nbits` bits find their word in the region, after any others. -/
def Serves (nbits : Word) (addr : Words) : Prop :=
  ∀ requests : List Request, (∀ q ∈ requests, q.nr < nbits) →
    ∃ replies addr', execAll addr requests = .ok (replies, addr') ∧
      (∀ nr < nbits, ∃ bit, testBit addr' nr = .ok bit) ∧
      ∀ offset fuel, nbits.toNat / 64 < fuel →
        (∃ nr, findNextBit fuel addr' nbits offset = .ok nr) ∧
        ∃ nr, findNextZeroBit fuel addr' nbits offset = .ok nr

structure LargeEnough (calloc : Calloc) (nbits : Word) : Prop where
  words : ∀ i < nbits, bitWord i < bitsToLongs nbits
  bytes : (bitsToLongs nbits * sizeofUnsignedLong).toNat = (bitsToLongs nbits).toNat * 8
  serves : ∀ addr, bitmapAlloc calloc nbits = some addr → Serves nbits addr

section Sizes
variable {nbits : Word}

/-- The rounding up wraps around for the 63 largest numbers. -/
private theorem toNat_bitsToLongs (nbits : Word) : (bitsToLongs nbits).toNat =
    if nbits.toNat ≤ 18446744073709551552 then (nbits.toNat + 63) / 64 else 0 := by
  have hsum : (nbits + bitsPerLong - 1).toNat = (nbits.toNat + 63) % 18446744073709551616 := by
    have hb : bitsPerLong.toNat = 64 := rfl
    have h1 : (1 : Word).toNat = 1 := rfl
    rw [BitVec.toNat_sub, BitVec.toNat_add, hb, h1]
    omega
  rw [bitsToLongs, divRoundUp, BitVec.toNat_udiv, hsum, show bitsPerLong.toNat = 64 from rfl]
  split <;> omega

private theorem toNat_size (nbits : Word) :
    (bitsToLongs nbits * sizeofUnsignedLong).toNat = (bitsToLongs nbits).toNat * 8 := by
  have hle : (bitsToLongs nbits).toNat * 8 < 18446744073709551616 := by
    rw [toNat_bitsToLongs]
    split <;> omega
  rw [BitVec.toNat_mul, show sizeofUnsignedLong.toNat = 8 from rfl, Nat.mod_eq_of_lt hle]

private theorem bitmapAlloc_eq {calloc : Calloc} {addr : Words}
    (h : bitmapAlloc calloc nbits = some addr) :
    addr = List.replicate (bitsToLongs nbits).toNat 0#64 := by
  rw [(calloc.zeroed h).2, toNat_size, show (1#64).toNat = 1 from rfl, Nat.one_mul,
    Nat.mul_div_cancel _ (by decide)]

/-- Words that hold a set serve all its accesses. -/
private theorem Represents.serves {addr : Words} {s : Finset Nat}
    (hr : Represents nbits.toNat addr s)
    (hn : nbits.toNat ≤ 18446744073709551552) : Serves nbits addr := by
  intro requests hq
  obtain ⟨addr', hok, hr'⟩ := execAll_represents requests hr fun q hm => BitVec.lt_def.mp (hq q hm)
  refine ⟨_, addr', hok, fun nr hnr => ⟨_, test_bit_spec hr' (BitVec.lt_def.mp hnr)⟩, ?_⟩
  intro offset fuel hf
  exact ⟨⟨_, findNextBit_eq offset hn hr'.length.ge hf⟩,
    ⟨_, findNextZeroBit_eq offset hn hr'.length.ge hf⟩⟩

/-- `bitmap_alloc` allocates enough unless its rounding up wraps around. -/
theorem bitmap_alloc_large_enough_iff (calloc : Calloc) (nbits : Word) :
    LargeEnough calloc nbits ↔ nbits.toNat ≤ 18446744073709551552 := by
  constructor
  · intro hl
    by_contra hn
    have hpos : (0 : Word) < nbits := by
      rw [BitVec.lt_def]
      change 0 < nbits.toNat
      omega
    have hw := BitVec.lt_def.mp (hl.words 0 hpos)
    rw [toNat_bitsToLongs, if_neg hn] at hw
    exact absurd hw (Nat.not_lt_zero _)
  · intro hn
    have hlongs := toNat_bitsToLongs nbits
    rw [if_pos hn] at hlongs
    refine ⟨fun i hi => ?_, toNat_size nbits, fun addr ha => ?_⟩
    · rw [BitVec.lt_def] at hi ⊢
      rw [toNat_bitWord, hlongs]
      omega
    · rw [bitmapAlloc_eq ha, hlongs]
      exact (represents_zero nbits.toNat).serves hn

end Sizes

def Calloc.unlimited : Calloc where
  call nmemb size :=
    if nmemb.toNat * size.toNat < 18446744073709551616 then
      some (List.replicate (nmemb.toNat * size.toNat / 8) 0#64)
    else none
  zeroed h := by
    split at h
    case isTrue hlt => exact ⟨hlt, (Option.some.inj h).symm⟩
    case isFalse => cases h

/-- A bitmap of `ULONG_MAX` bits is allocated without a word. -/
theorem alloc_of_all_ones : bitmapAlloc .unlimited (~~~0#64) = some [] ∧
    setBit [] 0#64 = .error .outOfBounds ∧ ¬ LargeEnough .unlimited (~~~0#64) := by
  refine ⟨by decide, rfl, fun hl => ?_⟩
  exact absurd (hl.words 0#64 (by decide)) (by decide)

end CommonProject.Bitmap

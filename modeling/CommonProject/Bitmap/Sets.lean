import Mathlib.Data.Finset.Basic
import CommonProject.Bitmap.Search

/-! The bitmap is a finite set of positions, and a scan lists its members. -/
namespace CommonProject.Bitmap
open Foundations.BitSearch

inductive Request
  | setBit (nr : Word)
  | clearBit (nr : Word)
  | testAndSetBit (nr : Word)
  | testAndClearBit (nr : Word)
  deriving DecidableEq, Repr

namespace Request

def nr : Request → Word
  | setBit nr | clearBit nr | testAndSetBit nr | testAndClearBit nr => nr

def exec (addr : Words) : Request → Except Fault (Option Int × Words)
  | setBit nr => do return (none, ← Bitmap.setBit addr nr)
  | clearBit nr => do return (none, ← Bitmap.clearBit addr nr)
  | testAndSetBit nr => do
    let (old, addr) ← Bitmap.testAndSetBit addr nr
    return (some old, addr)
  | testAndClearBit nr => do
    let (old, addr) ← Bitmap.testAndClearBit addr nr
    return (some old, addr)

/-- What an access comes to on a set; the answer is whether the position was a member. -/
def reply (s : Finset Nat) : Request → Option Int
  | setBit _ | clearBit _ => none
  | testAndSetBit nr | testAndClearBit nr => some (if nr.toNat ∈ s then 1 else 0)

def effect (s : Finset Nat) : Request → Finset Nat
  | setBit nr | testAndSetBit nr => insert nr.toNat s
  | clearBit nr | testAndClearBit nr => s.erase nr.toNat

end Request

def execAll : Words → List Request → Except Fault (List (Option Int) × Words)
  | addr, [] => return ([], addr)
  | addr, q :: qs => do
    let (reply, addr) ← q.exec addr
    let (replies, addr) ← execAll addr qs
    return (reply :: replies, addr)

def replies : Finset Nat → List Request → List (Option Int)
  | _, [] => []
  | s, q :: qs => q.reply s :: replies (q.effect s) qs

def effects (s : Finset Nat) (qs : List Request) : Finset Nat := qs.foldl Request.effect s

/-- Searching on behind each find, as long as there is one. -/
def scan (find : Word → Except Fault Word) (nbits : Word) : Nat → Word → Except Fault (List Word)
  | 0, _ => throw .outOfFuel
  | fuel + 1, start => do
    let i ← find start
    if i < nbits then
      let rest ← scan find nbits fuel (i + 1)
      return i :: rest
    else return []

structure Represents (nbits : Nat) (addr : Words) (s : Finset Nat) : Prop where
  length : addr.length = (nbits + 63) / 64
  bit : ∀ i, bitAt addr i = decide (i ∈ s)

section Bits
variable {addr : Words} {s : Finset Nat} {nr : Word} {nbits : Nat}

private theorem getLsbD_bitMask (nr : Word) {j : Nat} (hj : j < 64) :
    (bitMask nr).getLsbD j = decide (j = nr.toNat % 64) := by
  have hmod : (nr % bitsPerLong).toNat = nr.toNat % 64 := BitVec.toNat_umod
  rw [bitMask, BitVec.shiftLeft_eq', hmod, BitVec.getLsbD_shiftLeft, BitVec.getLsbD_one]
  by_cases hlt : j < nr.toNat % 64
  · simp [hj, hlt, hlt.ne]
  · have hiff : j - nr.toNat % 64 = 0 ↔ j = nr.toNat % 64 := by omega
    simp [hj, hlt, hiff]

/-- The masked word tells whether the bit is set. -/
private theorem and_bitMask_ne_zero (w nr : Word) :
    w &&& bitMask nr ≠ 0#64 ↔ w.getLsbD (nr.toNat % 64) = true := by
  have hlt := Nat.mod_lt nr.toNat (by decide : 64 > 0)
  constructor
  · intro hne
    by_contra hbit
    refine hne (BitVec.eq_of_getLsbD_eq fun i hi => ?_)
    rw [BitVec.getLsbD_and, getLsbD_bitMask nr hi, BitVec.getLsbD_zero]
    by_cases him : i = nr.toNat % 64
    · simpa [him] using hbit
    · simp [him]
  · intro hbit hzero
    have hand : (w &&& bitMask nr).getLsbD (nr.toNat % 64) = true := by
      rw [BitVec.getLsbD_and, hbit, getLsbD_bitMask nr hlt]
      simp
    rw [hzero, BitVec.getLsbD_zero] at hand
    cases hand

private theorem word_lt_length (hr : Represents nbits addr s) (hnr : nr.toNat < nbits) :
    nr.toNat / 64 < addr.length := by
  rw [hr.length]
  omega

private theorem div_bitsPerLong (nr : Word) : nr / bitsPerLong = bitWord nr := rfl

/-- Storing the addressed word with one bit changed. -/
private theorem store_word (hr : Represents nbits addr s) (hnr : nr.toNat < nbits) (b : Bool)
    {w : Word} {s' : Finset Nat} (hs : ∀ i, i ∈ s' ↔ if i = nr.toNat then b = true else i ∈ s)
    (hw : ∀ j < 64, w.getLsbD j =
      if j = nr.toNat % 64 then b else bitAt addr (64 * (nr.toNat / 64) + j)) :
    ∃ addr', store addr (bitWord nr) w = .ok addr' ∧ Represents nbits addr' s' := by
  have hk := word_lt_length hr hnr
  refine ⟨addr.set (nr.toNat / 64) w, ?_, List.length_set.trans hr.length, fun i => ?_⟩
  · rw [store, toNat_bitWord, if_pos hk]
    rfl
  · rw [bitAt_set hk]
    have hmem : decide (i ∈ s') = if i = nr.toNat then b else decide (i ∈ s) := by
      have hi := hs i
      split <;> simp_all
    by_cases hword : i / 64 = nr.toNat / 64
    · have hiff : i % 64 = nr.toNat % 64 ↔ i = nr.toNat := by omega
      have hi : 64 * (nr.toNat / 64) + i % 64 = i := by omega
      rw [if_pos hword, hw _ (Nat.mod_lt i (by decide)), hi, hmem, hr.bit]
      simp only [hiff]
    · have hne : i ≠ nr.toNat := fun h => hword (h ▸ rfl)
      rw [if_neg hword, hmem, if_neg hne, hr.bit]

/-- The word of a position in range can be read. -/
private theorem load_word (hr : Represents nbits addr s) (hnr : nr.toNat < nbits) :
    ∃ w, load addr (bitWord nr) = .ok w ∧
      ∀ j < 64, w.getLsbD j = bitAt addr (64 * (nr.toNat / 64) + j) := by
  have hk := word_lt_length hr hnr
  rw [← toNat_bitWord] at hk ⊢
  exact ⟨_, load_eq hk, fun j hj => getLsbD_load addr _ hj⟩

theorem represents_zero (nbits : Nat) :
    Represents nbits (List.replicate ((nbits + 63) / 64) 0#64) ∅ :=
  ⟨List.length_replicate, fun i => by simp [bitAt_replicate]⟩

section Word
variable {w : Word} (hr : Represents nbits addr s) (hnr : nr.toNat < nbits)
  (hw : ∀ j < 64, w.getLsbD j = bitAt addr (64 * (nr.toNat / 64) + j))
include hr hnr hw

private theorem store_or_bitMask : ∃ addr', store addr (bitWord nr) (w ||| bitMask nr) = .ok addr' ∧
    Represents nbits addr' (insert nr.toNat s) := by
  refine store_word hr hnr true (fun i => ?_) fun j hj => ?_
  · by_cases hi : i = nr.toNat <;> simp [hi]
  · rw [BitVec.getLsbD_or, hw j hj, getLsbD_bitMask nr hj]
    by_cases hjn : j = nr.toNat % 64 <;> simp [hjn]

private theorem store_and_not_bitMask :
    ∃ addr', store addr (bitWord nr) (w &&& ~~~bitMask nr) = .ok addr' ∧
    Represents nbits addr' (s.erase nr.toNat) := by
  refine store_word hr hnr false (fun i => ?_) fun j hj => ?_
  · by_cases hi : i = nr.toNat <;> simp [hi]
  · rw [BitVec.getLsbD_and, BitVec.getLsbD_not, hw j hj, getLsbD_bitMask nr hj]
    by_cases hjn : j = nr.toNat % 64 <;> simp [hjn, hj]

omit hnr in
private theorem old_bit_eq : (if w &&& bitMask nr ≠ 0#64 then (1 : Int) else 0) =
    if nr.toNat ∈ s then 1 else 0 := by
  have hiff : w &&& bitMask nr ≠ 0#64 ↔ nr.toNat ∈ s := by
    rw [and_bitMask_ne_zero, hw _ (Nat.mod_lt _ (by decide)), Nat.div_add_mod, hr.bit,
      decide_eq_true_eq]
  simp only [hiff]

end Word

section Access
variable (hr : Represents nbits addr s) (hnr : nr.toNat < nbits)
include hr hnr

private theorem set_bit_spec :
    ∃ addr', setBit addr nr = .ok addr' ∧ Represents nbits addr' (insert nr.toNat s) := by
  obtain ⟨w, hload, hw⟩ := load_word hr hnr
  obtain ⟨addr', hstore, hr'⟩ := store_or_bitMask hr hnr hw
  refine ⟨addr', ?_, hr'⟩
  rw [setBit, div_bitsPerLong, hload]
  exact hstore

private theorem clear_bit_spec :
    ∃ addr', clearBit addr nr = .ok addr' ∧ Represents nbits addr' (s.erase nr.toNat) := by
  obtain ⟨w, hload, hw⟩ := load_word hr hnr
  obtain ⟨addr', hstore, hr'⟩ := store_and_not_bitMask hr hnr hw
  refine ⟨addr', ?_, hr'⟩
  rw [clearBit, div_bitsPerLong, hload]
  exact hstore

private theorem test_and_set_bit_spec :
    ∃ addr', testAndSetBit addr nr = .ok (if nr.toNat ∈ s then 1 else 0, addr') ∧
      Represents nbits addr' (insert nr.toNat s) := by
  obtain ⟨w, hload, hw⟩ := load_word hr hnr
  obtain ⟨addr', hstore, hr'⟩ := store_or_bitMask hr hnr hw
  refine ⟨addr', ?_, hr'⟩
  rw [testAndSetBit, hload, ← old_bit_eq hr hw]
  exact congrArg (· >>= fun a => Except.ok (_, a)) hstore

private theorem test_and_clear_bit_spec :
    ∃ addr', testAndClearBit addr nr = .ok (if nr.toNat ∈ s then 1 else 0, addr') ∧
      Represents nbits addr' (s.erase nr.toNat) := by
  obtain ⟨w, hload, hw⟩ := load_word hr hnr
  obtain ⟨addr', hstore, hr'⟩ := store_and_not_bitMask hr hnr hw
  refine ⟨addr', ?_, hr'⟩
  rw [testAndClearBit, hload, ← old_bit_eq hr hw]
  exact congrArg (· >>= fun a => Except.ok (_, a)) hstore

theorem test_bit_spec : testBit addr nr = .ok (if nr.toNat ∈ s then 1 else 0) := by
  obtain ⟨w, hload, hw⟩ := load_word hr hnr
  have hmod := Nat.mod_lt nr.toNat (by decide : 64 > 0)
  have hbit : w.getLsbD (nr.toNat % 64) = decide (nr.toNat ∈ s) := by
    rw [hw _ hmod, Nat.div_add_mod, hr.bit]
  have hone : 1#64 &&& w >>> (nr &&& (bitsPerLong - 1)) =
      if nr.toNat ∈ s then 1#64 else 0#64 := by
    refine BitVec.eq_of_getLsbD_eq fun i hi => ?_
    rw [BitVec.getLsbD_and, BitVec.getLsbD_one, BitVec.ushiftRight_eq', toNat_and_last,
      BitVec.getLsbD_ushiftRight]
    by_cases h0 : i = 0
    · subst h0
      rw [Nat.add_zero, hbit]
      split <;> simp_all
    · split <;> simp [h0]
  rw [testBit, hload]
  refine congrArg Except.ok ?_
  rw [hone]
  split <;> rfl

end Access

/-- An access answers and acts as it does on the set. -/
private theorem exec_represents (hr : Represents nbits addr s) (q : Request)
    (hnr : q.nr.toNat < nbits) :
    ∃ addr', q.exec addr = .ok (q.reply s, addr') ∧ Represents nbits addr' (q.effect s) := by
  cases q with
  | setBit nr =>
    change nr.toNat < nbits at hnr
    obtain ⟨addr', hok, hr'⟩ := set_bit_spec hr hnr
    exact ⟨addr', by rw [Request.exec, hok]; rfl, hr'⟩
  | clearBit nr =>
    change nr.toNat < nbits at hnr
    obtain ⟨addr', hok, hr'⟩ := clear_bit_spec hr hnr
    exact ⟨addr', by rw [Request.exec, hok]; rfl, hr'⟩
  | testAndSetBit nr =>
    change nr.toNat < nbits at hnr
    obtain ⟨addr', hok, hr'⟩ := test_and_set_bit_spec hr hnr
    exact ⟨addr', by rw [Request.exec, hok]; rfl, hr'⟩
  | testAndClearBit nr =>
    change nr.toNat < nbits at hnr
    obtain ⟨addr', hok, hr'⟩ := test_and_clear_bit_spec hr hnr
    exact ⟨addr', by rw [Request.exec, hok]; rfl, hr'⟩

/-- So do any number of accesses. -/
theorem execAll_represents (qs : List Request) (hr : Represents nbits addr s)
    (hqs : ∀ q ∈ qs, q.nr.toNat < nbits) :
    ∃ addr', execAll addr qs = .ok (replies s qs, addr') ∧
      Represents nbits addr' (effects s qs) := by
  induction qs generalizing addr s with
  | nil => exact ⟨addr, rfl, hr⟩
  | cons q qs ih =>
    obtain ⟨addr₁, hok₁, hr₁⟩ := exec_represents hr q (hqs q List.mem_cons_self)
    obtain ⟨addr₂, hok₂, hr₂⟩ := ih hr₁ fun q' hq' => hqs q' (List.mem_cons_of_mem q hq')
    have hrest : execAll addr (q :: qs) =
        execAll addr₁ qs >>= fun r => pure (q.reply s :: r.1, r.2) := by
      rw [execAll, hok₁]
      rfl
    refine ⟨addr₂, ?_, hr₂⟩
    rw [hrest, hok₂]
    rfl

private theorem effect_mem_iff (q : Request) (s : Finset Nat) {i : Nat} (hi : i ≠ q.nr.toNat) :
    i ∈ q.effect s ↔ i ∈ s := by
  cases q <;> simp_all [Request.effect, Request.nr]

end Bits

section Scan
variable {find : Word → Except Fault Word} {p : Nat → Bool} {nbits start : Word} {fuel : Nat}

/-- Each turn resumes behind the position that was found. -/
private theorem scan_spec (hfind : ∀ start, find start =
      .ok (BitVec.ofNat 64 (search p start.toNat nbits.toNat)))
    (hstart : start.toNat ≤ nbits.toNat) (hfuel : nbits.toNat < start.toNat + fuel) :
    ∃ l, scan find nbits fuel start = .ok l ∧
      l.map BitVec.toNat = members p start.toNat nbits.toNat := by
  induction fuel generalizing start with
  | zero => omega
  | succ fuel ih =>
    rw [scan, hfind, members_eq]
    generalize hi : BitVec.ofNat 64 (search p start.toNat nbits.toNat) = i
    have hnat : search p start.toNat nbits.toNat = i.toNat := by rw [← hi, toNat_search]
    rw [hnat]
    by_cases hlt : i.toNat < nbits.toNat
    · have hle : start.toNat ≤ i.toNat := by
        rcases search_spec p start.toNat nbits.toNat with ⟨hle, -⟩ | ⟨hstop, -⟩
        · exact hnat ▸ hle
        · omega
      have hnext : (i + 1).toNat = i.toNat + 1 := by
        have hmax := nbits.isLt
        rw [BitVec.toNat_add, show (1 : Word).toNat = 1 from rfl, Nat.mod_eq_of_lt (by omega)]
      obtain ⟨l, hok, hl⟩ := @ih (i + 1) (by omega) (by omega)
      refine ⟨i :: l, ?_, ?_⟩
      · refine (if_pos (BitVec.lt_def.mpr hlt)).trans ?_
        rw [hok]
        rfl
      · rw [if_pos hlt, List.map_cons, hl, hnext]
    · refine ⟨[], if_neg (mt BitVec.lt_def.mp hlt), ?_⟩
      rw [if_neg hlt, List.map_nil]

private theorem members_zero (p : Nat → Bool) (stop : Nat) :
    members p 0 stop = (List.range stop).filter p := by
  rw [members, Nat.sub_zero, List.range_eq_range']

end Scan

/-- After any accesses the bitmap is the set that they make of the empty one: they answered as on
the set, each bit tells the membership, a further access changes no other bit, and the two scans
list the members and the others. -/
theorem bitmap_refines_set (nbits : Word) (requests : List Request) (fuel : Nat)
    (hn : nbits.toNat ≤ 2 ^ 64 - 64) (hreq : ∀ q ∈ requests, q.nr.toNat < nbits.toNat)
    (hfuel : nbits.toNat < fuel) :
    ∃ addr, execAll (List.replicate ((nbits.toNat + 63) / 64) 0#64) requests =
        .ok (replies ∅ requests, addr) ∧
      (∀ nr : Word, nr.toNat < nbits.toNat →
        testBit addr nr = .ok (if nr.toNat ∈ effects ∅ requests then 1 else 0)) ∧
      (∀ q : Request, q.nr.toNat < nbits.toNat → ∃ addr',
        q.exec addr = .ok (q.reply (effects ∅ requests), addr') ∧ addr'.length = addr.length ∧
        ∀ i, i ≠ q.nr.toNat → bitAt addr' i = bitAt addr i) ∧
      (∃ l, scan (findNextBit fuel addr nbits) nbits fuel 0#64 = .ok l ∧
        l.map BitVec.toNat =
          (List.range nbits.toNat).filter fun i => decide (i ∈ effects ∅ requests)) ∧
      ∃ l, scan (findNextZeroBit fuel addr nbits) nbits fuel 0#64 = .ok l ∧
        l.map BitVec.toNat =
          (List.range nbits.toNat).filter fun i => decide (i ∉ effects ∅ requests) := by
  obtain ⟨addr, hok, hr⟩ := execAll_represents requests (represents_zero nbits.toNat) hreq
  have hlen : (nbits.toNat + 63) / 64 ≤ addr.length := hr.length.ge
  have hfuel' : nbits.toNat / 64 < fuel := (Nat.div_le_self ..).trans_lt hfuel
  have hscan : ∀ (find : Word → Except Fault Word) (p : Nat → Bool),
      (∀ start, find start = .ok (BitVec.ofNat 64 (search p start.toNat nbits.toNat))) →
      ∃ l, scan find nbits fuel 0#64 = .ok l ∧
        l.map BitVec.toNat = (List.range nbits.toNat).filter p := by
    intro find p hfind
    have hstart : (0#64 : Word).toNat ≤ nbits.toNat := Nat.zero_le _
    obtain ⟨l, hl, hmem⟩ := scan_spec hfind hstart (by simpa using hfuel)
    exact ⟨l, hl, hmem.trans (members_zero p nbits.toNat)⟩
  refine ⟨addr, hok, fun nr hnr => test_bit_spec hr hnr, fun q hq => ?_, ?_, ?_⟩
  · obtain ⟨addr', hok', hr'⟩ := exec_represents hr q hq
    refine ⟨addr', hok', hr'.length.trans hr.length.symm, fun i hi => ?_⟩
    rw [hr'.bit, hr.bit, decide_eq_decide]
    exact effect_mem_iff q _ hi
  · obtain ⟨l, hl, hmem⟩ := hscan _ _ fun start => findNextBit_eq start hn hlen hfuel'
    refine ⟨l, hl, hmem.trans (List.filter_congr fun i _ => hr.bit i)⟩
  · obtain ⟨l, hl, hmem⟩ := hscan _ _ fun start => findNextZeroBit_eq start hn hlen hfuel'
    refine ⟨l, hl, hmem.trans (List.filter_congr fun i _ => ?_)⟩
    rw [hr.bit, decide_not]

/-- Two words, the bits 5 and 70 set, 5 cleared again. -/
theorem bitmap_of_seventy_two :
    execAll (List.replicate 2 0#64)
        [.setBit 5#64, .testAndSetBit 70#64, .testAndClearBit 5#64, .testAndSetBit 70#64] =
      .ok ([none, some 0, some 1, some 1], [0#64, 0x40#64]) ∧
    ∃ addr, execAll (List.replicate 2 0#64)
        [.setBit 5#64, .testAndSetBit 70#64, .testAndClearBit 5#64, .testAndSetBit 70#64] =
          .ok ([none, some 0, some 1, some 1], addr) ∧
      ∃ l, scan (findNextBit 73 addr 72#64) 72#64 73 0#64 = .ok l ∧ l.map BitVec.toNat = [70] := by
  obtain ⟨addr, hok, -, -, hscan, -⟩ := bitmap_refines_set 72#64
    [.setBit 5#64, .testAndSetBit 70#64, .testAndClearBit 5#64, .testAndSetBit 70#64] 73 (by decide)
    (by decide) (by decide)
  exact ⟨by decide, addr, hok, hscan⟩

end CommonProject.Bitmap

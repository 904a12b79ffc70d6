import CommonProject.Foundations.BitSearch

/-! The bitmap of `bitmap.c`. A memory region is the list of its words; an access behind its end is
a fault. -/
namespace CommonProject.Bitmap

/-- `unsigned long`. -/
abbrev Word := BitVec 64

abbrev Words := List Word

inductive Fault
  | outOfBounds
  | outOfFuel
  deriving DecidableEq, Repr

def bitsPerLong : Word := 64#64

def bitMask (nr : Word) : Word := 1#64 <<< (nr % bitsPerLong)

def bitWord (nr : Word) : Word := nr / bitsPerLong

def bitmapFirstWordMask (start : Word) : Word := ~~~0#64 <<< (start &&& (bitsPerLong - 1))

def roundDown (x y : Word) : Word := x &&& ~~~(y - 1)

def load (addr : Words) (i : Word) : Except Fault Word :=
  match addr[i.toNat]? with
  | some w => pure w
  | none => throw .outOfBounds

def store (addr : Words) (i w : Word) : Except Fault Words :=
  if i.toNat < addr.length then pure (addr.set i.toNat w) else throw .outOfBounds

def ffs (word : Word) : Word :=
  let (num, word) := if word &&& 0xffffffff#64 = 0#64 then (32#64, word >>> 32) else (0#64, word)
  let (num, word) := if word &&& 0xffff#64 = 0#64 then (num + 16, word >>> 16) else (num, word)
  let (num, word) := if word &&& 0xff#64 = 0#64 then (num + 8, word >>> 8) else (num, word)
  let (num, word) := if word &&& 0xf#64 = 0#64 then (num + 4, word >>> 4) else (num, word)
  let (num, word) := if word &&& 0x3#64 = 0#64 then (num + 2, word >>> 2) else (num, word)
  if word &&& 0x1#64 = 0#64 then num + 1 else num

def fetch (addr1 : Words) (addr2 : Option Words) (start invert : Word) : Except Fault Word := do
  let tmp ← load addr1 (bitWord start)
  let tmp ← match addr2 with
    | some addr2 => do
      let w ← load addr2 (bitWord start)
      pure (tmp &&& w)
    | none => pure tmp
  return tmp ^^^ invert

/-- The loop of `_find_next_bit`, with a bound on its turns. -/
def findLoop (addr1 : Words) (addr2 : Option Words) (nbits invert : Word) :
    Nat → Word → Word → Except Fault Word
  | 0, _, _ => throw .outOfFuel
  | fuel + 1, start, tmp =>
    if tmp = 0#64 then
      let start := start + bitsPerLong
      if start ≥ nbits then return nbits
      else do
        let tmp ← fetch addr1 addr2 start invert
        findLoop addr1 addr2 nbits invert fuel start tmp
    else return if start + ffs tmp < nbits then start + ffs tmp else nbits

def findNextBitIn (fuel : Nat) (addr1 : Words) (addr2 : Option Words) (nbits start invert : Word) :
    Except Fault Word := do
  if start ≥ nbits then return nbits
  else
    let tmp ← fetch addr1 addr2 start invert
    let tmp := tmp &&& bitmapFirstWordMask start
    let start := roundDown start bitsPerLong
    findLoop addr1 addr2 nbits invert fuel start tmp

def findNextBit (fuel : Nat) (addr : Words) (size offset : Word) : Except Fault Word :=
  findNextBitIn fuel addr none size offset 0#64

def findNextZeroBit (fuel : Nat) (addr : Words) (size offset : Word) : Except Fault Word :=
  findNextBitIn fuel addr none size offset (~~~0#64)

def setBit (addr : Words) (nr : Word) : Except Fault Words := do
  let w ← load addr (nr / bitsPerLong)
  store addr (nr / bitsPerLong) (w ||| bitMask nr)

def clearBit (addr : Words) (nr : Word) : Except Fault Words := do
  let w ← load addr (nr / bitsPerLong)
  store addr (nr / bitsPerLong) (w &&& ~~~bitMask nr)

def testAndSetBit (addr : Words) (nr : Word) : Except Fault (Int × Words) := do
  let mask := bitMask nr
  let old ← load addr (bitWord nr)
  let addr ← store addr (bitWord nr) (old ||| mask)
  return (if old &&& mask ≠ 0#64 then 1 else 0, addr)

def testAndClearBit (addr : Words) (nr : Word) : Except Fault (Int × Words) := do
  let mask := bitMask nr
  let old ← load addr (bitWord nr)
  let addr ← store addr (bitWord nr) (old &&& ~~~mask)
  return (if old &&& mask ≠ 0#64 then 1 else 0, addr)

def testBit (addr : Words) (nr : Word) : Except Fault Int := do
  let w ← load addr (bitWord nr)
  return (1#64 &&& w >>> (nr &&& (bitsPerLong - 1))).toNat

end CommonProject.Bitmap

import RiscvOs.Basic
/-!
# `klibc/bitmap.c` and `klibc/bitwise_utils.c`

`slots_ptr` points into memory, so every function takes the structure together with the memory it points into
(`BitmapState`).  `xlen` is `WORD_SIZE`: 32 in the build, 64 in the configuration the header is also written for.  The
bits are selected by shifting the literals `1` and `1u`, which are 32-bit operands whatever the word size.
-/
namespace RiscvOs

/-- `1 << offset` where it meets a word: a 32-bit shift, sign-extended. -/
def intBit (xlen offset : Nat) : BitVec xlen := (1#32 <<< (offset % 32)).signExtend xlen

/-- `(word_t)(1u << offset)`: a 32-bit shift, zero-extended. -/
def uintBit (xlen offset : Nat) : BitVec xlen := (1#32 <<< (offset % 32)).setWidth xlen

structure Bitmap where
  slotsSize : Nat
  freeSlotsCount : Nat
  lastFreed : Nat
  slotsPtr : Nat
deriving DecidableEq, Repr

structure BitmapState (xlen : Nat) where
  map : Bitmap
  mem : Mem xlen

variable {xlen : Nat}

/-- `slots_ptr[i]`. -/
def BitmapState.word (s : BitmapState xlen) (i : Nat) : BitVec xlen := s.mem (s.map.slotsPtr + i * (xlen / 8))

def BitmapState.setWord (s : BitmapState xlen) (i : Nat) (v : BitVec xlen) : BitmapState xlen :=
  { s with mem := s.mem.store (s.map.slotsPtr + i * (xlen / 8)) v }

def bitmapIsUsed (s : BitmapState xlen) (slotNo : Nat) : Bool :=
  (s.word (slotNo / xlen) &&& intBit xlen (slotNo % xlen)) != 0

def enableBit (s : BitmapState xlen) (index : Nat) : Bool × BitmapState xlen :=
  let wordIndex := index / xlen
  let bitIndex := index % xlen
  if wordIndex < s.map.slotsSize then
    (true, s.setWord wordIndex (s.word wordIndex ||| uintBit xlen bitIndex))
  else (false, s)

def wordAlignedMemset (m : Mem xlen) (p : Nat) (num : BitVec xlen) : Nat → Mem xlen
  | 0         => m
  | count + 1 => wordAlignedMemset (m.store p num) (p + xlen / 8) num count

def bitmapInit (ndebug : Bool) (s : BitmapState xlen) (slots size : Nat) : Except Stop (BitmapState xlen) := do
  debugAssert ndebug (slots != 0) "slots != NULL"
  if slots = 0 ∨ size = 0 then
    return s
  return ⟨⟨size, wrap32 (size * xlen), 0, slots⟩, wordAlignedMemset s.mem slots 0 size⟩

/-- The loop of `count_trailing_zeroes` with `left` rounds to go, at `i`. -/
def countTrailingZeroesFrom (x : BitVec xlen) : (left i : Nat) → Nat
  | 0, _        => 32
  | left + 1, i => if (1 : BitVec xlen) &&& (x >>> i) ≠ 0 then i else countTrailingZeroesFrom x left (i + 1)

def countTrailingZeroes (x : BitVec xlen) : Nat := countTrailingZeroesFrom x xlen 0

/-- The loop of `bitmap_allocate_slot` with `left` words to go, at word `i`. -/
def bitmapAllocateFrom (s : BitmapState xlen) : (left i : Nat) → Int × BitmapState xlen
  | 0, _        => (-1, s)
  | left + 1, i =>
    if s.word i = BitVec.allOnes xlen then bitmapAllocateFrom s left (i + 1)
    else
      let offset := countTrailingZeroes (~~~ s.word i)
      let s' := s.setWord i (s.word i ||| intBit xlen offset)
      (toInt32 (xlen * i + offset), { s' with map.freeSlotsCount := sub32 s.map.freeSlotsCount 1 })

/-- `bitmap_allocate_slot`; its callers pass the address of a static structure, never `NULL`. -/
def bitmapAllocateSlot (s : BitmapState xlen) : Int × BitmapState xlen := bitmapAllocateFrom s s.map.slotsSize 0

/-- `bitmap_free_slot`; the slot is a `uint`, 32 bits wide whatever the word size. -/
def bitmapFreeSlot (ndebug : Bool) (s : BitmapState xlen) (slot : Nat) : Except Stop (BitmapState xlen) := do
  let slot := wrap32 slot
  debugAssert ndebug (s.map.slotsSize > slot) "map->slots_size > slot"
  let word := slot / xlen
  let offset := slot % xlen
  let snapshot := s.word word
  let s' := s.setWord word (snapshot &&& ~~~ intBit xlen offset)
  if s'.word word ≠ snapshot then
    return { s' with map.freeSlotsCount := wrap32 (s.map.freeSlotsCount + 1) }
  return s'

def bitmapMarkAsUsed (s : BitmapState xlen) (firstSlot slotsToMark : Nat) : BitmapState xlen :=
  let lastSlot := wrap32 (firstSlot + slotsToMark)
  (List.range' firstSlot (lastSlot - firstSlot)).foldl (fun s i => (enableBit s i).2) s

end RiscvOs

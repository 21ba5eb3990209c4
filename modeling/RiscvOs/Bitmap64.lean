import RiscvOs.BitmapSlots
/-!
# The bitmap with 64-bit words

`1 << offset` is shifted as an `int`: an offset of 32 or more selects the bit 32 below, and bit 31 is extended over the
whole upper half.  Each function of `bitmap.c` is right on exactly the slots its condition names.  The slot of
`bitmap_free_slot` is a `uint` here too: from `2 ^ 32` on the call reaches another slot.
-/
namespace RiscvOs

/-- Bit `j` of a word is in the `int` that stands for the offset `o`. -/
def InLiteral (o j : Nat) : Prop := j = o % 32 ∨ o % 32 = 31 ∧ 31 < j

/-- The three kinds of offsets. -/
theorem inLiteral_cases {o : Nat} (ho : o < 64) :
    o < 31 ∧ (∀ j, InLiteral o j ↔ j = o) ∨
      31 < o ∧ o < 63 ∧ (∀ j, InLiteral o j ↔ j = o - 32) ∨
        (o = 31 ∨ o = 63) ∧ ∀ j, InLiteral o j ↔ 31 ≤ j := by
  unfold InLiteral
  by_cases hlow : o < 31
  · exact Or.inl ⟨hlow, fun j => by omega⟩
  · by_cases hsign : o = 31 ∨ o = 63
    · exact Or.inr (Or.inr ⟨hsign, fun j => by omega⟩)
    · exact Or.inr (Or.inl ⟨by omega, by omega, fun j => by omega⟩)

theorem getLsbD_one_shift (o j : Nat) : (1#32 <<< (o % 32)).getLsbD j = true ↔ j = o % 32 := by
  have hbit := getLsbD_intBit (Nat.mod_lt o (by decide)) j
  rw [intBit, BitVec.signExtend_eq, Nat.mod_mod] at hbit
  rw [hbit, decide_eq_true_eq]

theorem getLsbD_intBit64 {o j : Nat} (hj : j < 64) : (intBit 64 o).getLsbD j = true ↔ InLiteral o j := by
  have hsign : (1#32 <<< (o % 32)).msb = true ↔ 31 = o % 32 := by
    rw [BitVec.msb_eq_getLsbD_last]
    exact getLsbD_one_shift o 31
  unfold intBit InLiteral
  rw [BitVec.getLsbD_signExtend, decide_eq_true hj, Bool.true_and]
  by_cases hlow : j < 32
  · rw [if_pos hlow, getLsbD_one_shift]
    omega
  · rw [if_neg hlow, hsign]
    omega

theorem getLsbD_uintBit64 {o j : Nat} (hj : j < 64) : (uintBit 64 o).getLsbD j = true ↔ j = o % 32 := by
  unfold uintBit
  rw [BitVec.getLsbD_setWidth, decide_eq_true hj, Bool.true_and]
  by_cases hlow : j < 32
  · exact getLsbD_one_shift o j
  · rw [BitVec.getLsbD_of_ge _ _ (by omega)]
    have hlt := Nat.mod_lt o (show 32 > 0 by decide)
    refine iff_of_false (by decide) ?_
    omega

/-! ## One word, one slot -/

theorem slot_div {o : Nat} (w : Nat) (ho : o < 64) : (64 * w + o) / 64 = w := by omega

theorem slot_mod {o : Nat} (w : Nat) (ho : o < 64) : (64 * w + o) % 64 = o := by omega

section

variable (s : BitmapState 64)

theorem bit_slot (w : Nat) {o : Nat} (ho : o < 64) : s.bit (64 * w + o) = (s.word w).getLsbD o := by
  rw [BitmapState.bit, slot_div w ho, slot_mod w ho]

theorem bit_setWord64 (i : Nat) (v : BitVec 64) (k : Nat) :
    (s.setWord i v).bit k = if k / 64 = i then v.getLsbD (k % 64) else s.bit k := by
  simp only [BitmapState.bit, BitmapState.setWord, BitmapState.word, Mem.store_apply]
  by_cases h : k / 64 = i
  · simp [h]
  · rw [if_neg h, if_neg (by omega)]

theorem bit_count (c k : Nat) : ({ s with map.freeSlotsCount := c } : BitmapState 64).bit k = s.bit k := rfl

theorem bit_setWord64_or (i : Nat) (x : BitVec 64) (k : Nat) :
    (s.setWord i (s.word i ||| x)).bit k = true ↔ s.bit k = true ∨ k / 64 = i ∧ x.getLsbD (k % 64) = true := by
  rw [bit_setWord64]
  by_cases h : k / 64 = i
  · subst h
    rw [if_pos rfl, BitVec.getLsbD_or, Bool.or_eq_true, BitmapState.bit]
    simp
  · simp [h]

theorem bit_setWord64_andNot (i : Nat) (x : BitVec 64) (k : Nat) :
    (s.setWord i (s.word i &&& ~~~x)).bit k = true ↔
      s.bit k = true ∧ ¬ (k / 64 = i ∧ x.getLsbD (k % 64) = true) := by
  rw [bit_setWord64]
  by_cases h : k / 64 = i
  · subst h
    have hlt : k % 64 < 64 := Nat.mod_lt k (by decide)
    rw [if_pos rfl, BitVec.getLsbD_and, BitVec.getLsbD_not, Bool.and_eq_true, BitmapState.bit]
    simp [hlt]
  · simp [h]

end

/-! ## `bitmap_is_used` -/

/-- Offset `o` of a word `w` is read right: it is below 31, or has the value of the bit that is read instead, or no bit
from 31 on is set unless it is. -/
def SlotReadable (w : BitVec 64) (o : Nat) : Prop :=
  o < 31 ∨ 31 < o ∧ o < 63 ∧ w.getLsbD (o - 32) = w.getLsbD o ∨
    (o = 31 ∨ o = 63) ∧ (w.getLsbD o = true ∨ ∀ j ≥ 31, w.getLsbD j = false)

theorem and_intBit64_ne_zero_iff (w : BitVec 64) (o : Nat) :
    (w &&& intBit 64 o) ≠ 0 ↔ ∃ j, InLiteral o j ∧ w.getLsbD j = true := by
  constructor
  · intro hne
    by_contra hnone
    apply hne
    apply BitVec.eq_of_getLsbD_eq
    intro j hj
    have hclear : ¬ (w.getLsbD j = true ∧ (intBit 64 o).getLsbD j = true) := fun h =>
      hnone ⟨j, (getLsbD_intBit64 hj).1 h.2, h.1⟩
    rw [BitVec.getLsbD_and]
    simpa using hclear
  · rintro ⟨j, hin, hset⟩ hzero
    have hj : j < 64 := BitVec.lt_of_getLsbD hset
    have hbit := congrArg (fun x => x.getLsbD j) hzero
    simp only [BitVec.getLsbD_and, hset, (getLsbD_intBit64 hj).2 hin] at hbit
    simp at hbit

theorem bitmapIsUsed64_iff (s : BitmapState 64) (k : Nat) :
    bitmapIsUsed s k = s.bit k ↔ SlotReadable (s.word (k / 64)) (k % 64) := by
  have ho : k % 64 < 64 := Nat.mod_lt k (by decide)
  rw [Bool.eq_iff_iff, bitmapIsUsed, bne_iff_ne, and_intBit64_ne_zero_iff, BitmapState.bit]
  generalize s.word (k / 64) = w
  generalize k % 64 = o at ho ⊢
  unfold SlotReadable
  rcases inLiteral_cases ho with ⟨hlow, hin⟩ | ⟨hge, hlt, hin⟩ | ⟨hsign, hin⟩
  · refine iff_of_true ?_ (Or.inl hlow)
    simp only [hin, exists_eq_left]
  · simp only [hin, exists_eq_left]
    rw [← Bool.eq_iff_iff]
    constructor
    · exact fun h => Or.inr (Or.inl ⟨hge, hlt, h⟩)
    · intro h
      rcases h with h | h | h
      · omega
      · exact h.2.2
      · omega
  · simp only [hin]
    constructor
    · intro h
      refine Or.inr (Or.inr ⟨hsign, ?_⟩)
      by_cases hset : w.getLsbD o = true
      · exact Or.inl hset
      · exact Or.inr fun j hj => Bool.eq_false_iff.2 fun hj' => hset (h.1 ⟨j, hj, hj'⟩)
    · intro h
      have hcond : w.getLsbD o = true ∨ ∀ j ≥ 31, w.getLsbD j = false := by
        rcases h with h | h | h
        · omega
        · omega
        · exact h.2
      constructor
      · rintro ⟨j, hj, hset⟩
        refine hcond.resolve_right fun hclear => ?_
        rw [hclear j hj] at hset
        cases hset
      · intro hset
        exact ⟨o, by omega, hset⟩

/-! ## `_enable_bit` -/

/-- `_enable_bit` sets the bit and no other. -/
def SetsBit (s : BitmapState 64) (k : Nat) : Prop := ∀ j, (enableBit s k).2.bit j = (decide (j = k) || s.bit j)

/-- Offset `o` of a word `w` is set right: it is below 32, or it and the bit that is set instead are set already. -/
def SlotSettable (w : BitVec 64) (o : Nat) : Prop := o < 32 ∨ w.getLsbD (o - 32) = true ∧ w.getLsbD o = true

theorem setsBit_iff {s : BitmapState 64} {k : Nat} (hk : k < s.capacity) :
    SetsBit s k ↔ SlotSettable (s.word (k / 64)) (k % 64) := by
  have hword : k / 64 < s.map.slotsSize := by
    unfold BitmapState.capacity at hk
    omega
  have hset : ∀ j, (enableBit s k).2.bit j = true ↔ s.bit j = true ∨ j = 64 * (k / 64) + k % 64 % 32 := by
    intro j
    have hj : j % 64 < 64 := Nat.mod_lt j (by decide)
    unfold enableBit
    simp only [hword, if_true]
    rw [bit_setWord64_or, getLsbD_uintBit64 hj]
    refine or_congr_right ?_
    omega
  have hbits : SetsBit s k ↔ ∀ j, (s.bit j = true ∨ j = 64 * (k / 64) + k % 64 % 32) ↔ (j = k ∨ s.bit j = true) := by
    unfold SetsBit
    refine forall_congr' fun j => ?_
    rw [Bool.eq_iff_iff, hset, Bool.or_eq_true, decide_eq_true_eq]
  rw [hbits]
  unfold SlotSettable
  by_cases hlow : k % 64 < 32
  · refine iff_of_true (fun j => ?_) (Or.inl hlow)
    rw [show 64 * (k / 64) + k % 64 % 32 = k by omega, or_comm]
  · rw [or_iff_right hlow]
    have hother : s.bit (64 * (k / 64) + k % 64 % 32) = (s.word (k / 64)).getLsbD (k % 64 - 32) := by
      rw [show k % 64 % 32 = k % 64 - 32 by omega, bit_slot s (k / 64) (by omega)]
    rw [← hother]
    constructor
    · intro h
      refine ⟨((h _).1 (Or.inr rfl)).resolve_left (by omega), ?_⟩
      exact ((h k).2 (Or.inl rfl)).resolve_right (by omega)
    · rintro ⟨h1, h2⟩ j
      constructor
      · rintro (h | rfl)
        · exact Or.inr h
        · exact Or.inr h1
      · rintro (rfl | h)
        · exact Or.inl h2
        · exact Or.inl h

/-! ## `bitmap_free_slot` -/

/-- `bitmap_free_slot` changes no bit but this one. -/
def FreesAtMost (ndebug : Bool) (s : BitmapState 64) (k : Nat) : Prop :=
  ∀ s', bitmapFreeSlot ndebug s k = .ok s' → ∀ j ≠ k, s'.bit j = s.bit j

/-- Offset `o` of a word `w` is freed right: it is below 31, or the bits cleared with it or instead are clear. -/
def SlotFreeable (w : BitVec 64) (o : Nat) : Prop :=
  o < 31 ∨ 31 < o ∧ o < 63 ∧ w.getLsbD (o - 32) = false ∨ (o = 31 ∨ o = 63) ∧ ∀ j ≥ 31, j ≠ o → w.getLsbD j = false

/-- Freeing offset `o` of a word `w` changes nothing: the bits cleared are clear. -/
def NothingFreed (w : BitVec 64) (o : Nat) : Prop :=
  o < 31 ∧ w.getLsbD o = false ∨ 31 < o ∧ o < 63 ∧ w.getLsbD (o - 32) = false ∨
    (o = 31 ∨ o = 63) ∧ ∀ j ≥ 31, w.getLsbD j = false

/-- Slot `k` is freed right: a `uint` reaches it, or what its low 32 bits lead to has nothing to free. -/
def FreedRight (s : BitmapState 64) (k : Nat) : Prop :=
  if k < 2 ^ 32 then SlotFreeable (s.word (k / 64)) (k % 64) else NothingFreed (s.word (wrap32 k / 64)) (k % 64)

theorem slotFreeable_iff {w : BitVec 64} {o : Nat} (ho : o < 64) :
    SlotFreeable w o ↔ ∀ j, InLiteral o j → j ≠ o → w.getLsbD j = false := by
  unfold SlotFreeable
  rcases inLiteral_cases ho with ⟨hlow, hin⟩ | ⟨hge, hlt, hin⟩ | ⟨hsign, hin⟩
  · refine iff_of_true (Or.inl hlow) fun j hj hne => ?_
    exact absurd ((hin j).1 hj) hne
  · constructor
    · intro h j hj _
      rw [(hin j).1 hj]
      rcases h with h | h | h
      · omega
      · exact h.2.2
      · omega
    · intro h
      exact Or.inr (Or.inl ⟨hge, hlt, h _ ((hin _).2 rfl) (by omega)⟩)
  · constructor
    · intro h j hj hne
      rcases h with h | h | h
      · omega
      · omega
      · exact h.2 j ((hin j).1 hj) hne
    · intro h
      exact Or.inr (Or.inr ⟨hsign, fun j hj hne => h j ((hin j).2 hj) hne⟩)

theorem nothingFreed_iff {w : BitVec 64} {o : Nat} (ho : o < 64) :
    NothingFreed w o ↔ ∀ j, InLiteral o j → w.getLsbD j = false := by
  unfold NothingFreed
  rcases inLiteral_cases ho with ⟨hlow, hin⟩ | ⟨hge, hlt, hin⟩ | ⟨hsign, hin⟩
  · simp only [hin, forall_eq]
    refine ⟨fun h => ?_, fun h => Or.inl ⟨hlow, h⟩⟩
    rcases h with h | h | h
    · exact h.2
    · omega
    · omega
  · simp only [hin, forall_eq]
    refine ⟨fun h => ?_, fun h => Or.inr (Or.inl ⟨hge, hlt, h⟩)⟩
    rcases h with h | h | h
    · omega
    · exact h.2.2
    · omega
  · simp only [hin]
    refine ⟨fun h => ?_, fun h => Or.inr (Or.inr ⟨hsign, h⟩)⟩
    rcases h with h | h | h
    · omega
    · omega
    · exact h.2

/-- The bits cleared are those of the literal in the word of the slot, all but the slot itself clear already. -/
theorem freedRight_iff (s : BitmapState 64) (k : Nat) :
    FreedRight s k ↔ ∀ j, InLiteral (k % 64) j → 64 * (wrap32 k / 64) + j ≠ k →
      (s.word (wrap32 k / 64)).getLsbD j = false := by
  have ho : k % 64 < 64 := Nat.mod_lt k (by decide)
  unfold FreedRight
  by_cases hk : k < 2 ^ 32
  · rw [if_pos hk, wrap32_of_lt hk, slotFreeable_iff ho]
    refine forall_congr' fun j => imp_congr_right fun _ => ?_
    rw [show 64 * (k / 64) + j ≠ k ↔ j ≠ k % 64 by omega]
  · -- no bit of that word is the slot's own
    rw [if_neg hk, nothingFreed_iff ho]
    refine forall_congr' fun j => imp_congr_right fun _ => ⟨fun h _ => h, fun h => ?_⟩
    by_cases hj : j < 64
    · have hlow := wrap32_lt k
      exact h (by omega)
    · exact BitVec.getLsbD_of_ge _ _ (Nat.le_of_not_lt hj)

theorem bitmapFreeSlot64_bit {ndebug : Bool} {s s' : BitmapState 64} {k : Nat}
    (h : bitmapFreeSlot ndebug s k = .ok s') (j : Nat) :
    s'.bit j = true ↔ s.bit j = true ∧ ¬ (j / 64 = wrap32 k / 64 ∧ InLiteral (k % 64) (j % 64)) := by
  have hj : j % 64 < 64 := Nat.mod_lt j (by decide)
  have hoffset : wrap32 k % 64 = k % 64 := by
    unfold wrap32
    omega
  have hbits : s'.bit j =
      (s.setWord (wrap32 k / 64) (s.word (wrap32 k / 64) &&& ~~~ intBit 64 (wrap32 k % 64))).bit j := by
    unfold bitmapFreeSlot at h
    simp only at h
    rw [debugAssert_bind] at h
    split at h
    case isTrue =>
      split at h
      · cases h
        rfl
      · cases h
        rfl
    case isFalse => cases h
  rw [hbits, hoffset, bit_setWord64_andNot, getLsbD_intBit64 hj]

theorem bitmapFreeSlot64_ok {ndebug : Bool} {s : BitmapState 64} {k : Nat}
    (h : ndebug = true ∨ s.map.slotsSize > wrap32 k) : ∃ s', bitmapFreeSlot ndebug s k = .ok s' := by
  have hassert : (ndebug || decide (s.map.slotsSize > wrap32 k)) = true := by simpa using h
  unfold bitmapFreeSlot
  simp only
  rw [debugAssert_bind, if_pos hassert]
  split
  · exact ⟨_, rfl⟩
  · exact ⟨_, rfl⟩

theorem bitmapFreeSlot64_asserts {ndebug : Bool} {s s' : BitmapState 64} {k : Nat}
    (h : bitmapFreeSlot ndebug s k = .ok s') : ndebug = true ∨ s.map.slotsSize > wrap32 k := by
  unfold bitmapFreeSlot at h
  simp only at h
  rw [debugAssert_bind] at h
  split at h
  case isTrue hassert => simpa using hassert
  case isFalse => cases h

theorem freesAtMost_iff (ndebug : Bool) (s : BitmapState 64) (k : Nat) :
    FreesAtMost ndebug s k ↔ (ndebug = true ∨ s.map.slotsSize > wrap32 k → FreedRight s k) := by
  rw [freedRight_iff]
  constructor
  · intro h hassert i hin hne
    obtain ⟨s', hs'⟩ := bitmapFreeSlot64_ok hassert
    by_contra hset
    have hi : i < 64 := BitVec.lt_of_getLsbD (Bool.eq_true_of_not_eq_false hset)
    have hsame := h s' hs' (64 * (wrap32 k / 64) + i) hne
    have hbit : s.bit (64 * (wrap32 k / 64) + i) = true := by
      rw [bit_slot s (wrap32 k / 64) hi]
      exact Bool.eq_true_of_not_eq_false hset
    rw [hbit, bitmapFreeSlot64_bit hs', slot_div _ hi, slot_mod _ hi] at hsame
    exact hsame.2 ⟨rfl, hin⟩
  · intro h s' hs' j hj
    rw [Bool.eq_iff_iff, bitmapFreeSlot64_bit hs']
    refine and_iff_left_of_imp fun hset => ?_
    rintro ⟨hdiv, hin⟩
    have hclear := h (bitmapFreeSlot64_asserts hs') (j % 64) hin (by omega)
    rw [BitmapState.bit, hdiv, hclear] at hset
    cases hset

/-! ## `bitmap_allocate_slot` -/

/-- `bitmap_allocate_slot` changes the bit it returns and no other; with none clear it returns `-1` and changes
nothing. -/
structure TakesOne (s : BitmapState 64) : Prop where
  free : (∃ k < s.capacity, s.bit k = false) →
    ∃ k : Nat, (bitmapAllocateSlot s).1 = k ∧ ∀ j, (bitmapAllocateSlot s).2.bit j ≠ s.bit j ↔ j = k
  full : (∀ k < s.capacity, s.bit k = true) → bitmapAllocateSlot s = (-1, s)

/-- The lowest clear offset `o` of a word `w` is taken right: it is below 31, or it is 31 and all bits above it are set,
or it is 63. -/
def SlotTakable (w : BitVec 64) (o : Nat) : Prop :=
  o < 31 ∨ o = 31 ∧ (∀ j, 31 < j → j < 64 → w.getLsbD j = true) ∨ o = 63

/-- The lowest clear slot is an `int`, and is taken right. -/
def LowestTakable (s : BitmapState 64) : Prop :=
  ∀ k, IsLeast {k | k < s.capacity ∧ s.bit k = false} k → k < 2 ^ 31 ∧ SlotTakable (s.word (k / 64)) (k % 64)

theorem toInt32_eq_self_iff (x : Nat) : toInt32 x = x ↔ x < 2 ^ 31 := by
  unfold toInt32
  split <;> omega

section

variable {w : BitVec 64} {o : Nat}

/-- One clear bit is in the literal of the lowest clear offset exactly when the offset is taken right. -/
theorem slotTakable_iff (ho : o < 64) (hclear : w.getLsbD o = false) (hlow : ∀ j < o, w.getLsbD j = true) :
    SlotTakable w o ↔ ∀ j < 64, (w.getLsbD j = false ∧ InLiteral o j ↔ j = o) := by
  unfold SlotTakable
  rcases inLiteral_cases ho with ⟨hlt, hin⟩ | ⟨hge, hlt, hin⟩ | ⟨hsign, hin⟩
  · refine iff_of_true (Or.inl hlt) fun j _ => ?_
    rw [hin, and_iff_right_of_imp]
    rintro rfl
    exact hclear
  · refine iff_of_false (by omega) fun h => ?_
    -- the bit that is set instead is not clear
    have hself := ((h o ho).2 rfl).2
    rw [hin] at hself
    omega
  · constructor
    · intro h j hj
      rw [hin]
      constructor
      · rintro ⟨hj0, hge⟩
        by_contra hne
        have hset : w.getLsbD j = true := by
          rcases h with h | h | h
          · omega
          · exact h.2 j (by omega) hj
          · exact hlow j (by omega)
        rw [hset] at hj0
        cases hj0
      · rintro rfl
        exact ⟨hclear, by omega⟩
    · intro h
      rcases hsign with rfl | rfl
      · refine Or.inr (Or.inl ⟨rfl, fun j hgt hj => ?_⟩)
        by_contra hset
        have hself := (h j hj).1 ⟨Bool.eq_false_of_not_eq_true hset, (hin j).2 (by omega)⟩
        omega
      · exact Or.inr (Or.inr rfl)

end

theorem takesOne_of_full {s : BitmapState 64} (h : ∀ k < s.capacity, s.bit k = true)
    (hrun : bitmapAllocateSlot s = (-1, s)) : TakesOne s ∧ LowestTakable s := by
  refine ⟨⟨?_, fun _ => hrun⟩, ?_⟩
  · rintro ⟨k, hk, hclear⟩
    rw [h k hk] at hclear
    cases hclear
  · intro k hk
    have hclear := hk.1.2
    rw [h k hk.1.1] at hclear
    cases hclear

section

variable {s : BitmapState 64} {w o : Nat}

/-- The lowest clear offset of the first word with a clear bit is the lowest clear slot. -/
theorem isLeast_clear (hw : w < s.map.slotsSize) (ho : o < 64) (hfull : ∀ j < w, s.word j = BitVec.allOnes 64)
    (hclear : (s.word w).getLsbD o = false) (hlow : ∀ j < o, (s.word w).getLsbD j = true) :
    IsLeast {k | k < s.capacity ∧ s.bit k = false} (64 * w + o) := by
  refine ⟨⟨?_, ?_⟩, fun j hj => Nat.not_lt.1 fun hlt => ?_⟩
  · unfold BitmapState.capacity
    omega
  · rw [bit_slot s w ho, hclear]
  · have hbit : (s.word (j / 64)).getLsbD (j % 64) = false := hj.2
    by_cases hword : j / 64 < w
    · rw [hfull _ hword, BitVec.getLsbD_allOnes, decide_eq_true (Nat.mod_lt j (by decide))] at hbit
      cases hbit
    · have hsame : j / 64 = w := by omega
      rw [hsame, hlow _ (by omega)] at hbit
      cases hbit

theorem bit_ne_setWord64_or_iff (j : Nat) :
    (s.setWord w (s.word w ||| intBit 64 o)).bit j ≠ s.bit j ↔
      j / 64 = w ∧ (s.word w).getLsbD (j % 64) = false ∧ InLiteral o (j % 64) := by
  have hj : j % 64 < 64 := Nat.mod_lt j (by decide)
  rw [Ne, Bool.eq_iff_iff, bit_setWord64_or, getLsbD_intBit64 hj]
  by_cases hdiv : j / 64 = w
  · subst hdiv
    rw [BitmapState.bit]
    simp [and_comm]
  · simp [hdiv]

/-- A search that stops at a slot takes it right exactly when the slot allows it. -/
theorem takesOne_of_clear (ho : o < 64) (hleast : IsLeast {k | k < s.capacity ∧ s.bit k = false} (64 * w + o))
    (hret : (bitmapAllocateSlot s).1 = toInt32 (64 * w + o))
    (hbits : ∀ j, (bitmapAllocateSlot s).2.bit j = (s.setWord w (s.word w ||| intBit 64 o)).bit j) :
    TakesOne s ↔ 64 * w + o < 2 ^ 31 ∧ SlotTakable (s.word w) o := by
  have hclear : (s.word w).getLsbD o = false := by
    rw [← bit_slot s w ho]
    exact hleast.1.2
  have hlow : ∀ j < o, (s.word w).getLsbD j = true := by
    intro j hj
    by_contra hset
    have hbit : s.bit (64 * w + j) = false := by
      rw [bit_slot s w (by omega)]
      exact Bool.eq_false_of_not_eq_true hset
    have hle := hleast.2 ⟨Nat.lt_of_le_of_lt (by omega) hleast.1.1, hbit⟩
    omega
  have hchanged : ∀ j < 64, (bitmapAllocateSlot s).2.bit (64 * w + j) ≠ s.bit (64 * w + j) ↔
      (s.word w).getLsbD j = false ∧ InLiteral o j := by
    intro j hj
    rw [hbits, bit_ne_setWord64_or_iff, slot_div w hj, slot_mod w hj, and_iff_right rfl]
  have hword : ∀ j, (bitmapAllocateSlot s).2.bit j ≠ s.bit j → j = 64 * w + j % 64 := by
    intro j hne
    rw [hbits, bit_ne_setWord64_or_iff] at hne
    omega
  rw [slotTakable_iff ho hclear hlow]
  constructor
  · intro h
    obtain ⟨k, hk, hone⟩ := h.free ⟨_, hleast.1⟩
    -- the bit that changes is at the offset or above it, so the offset's own bit is in the literal
    have hkw := hword k ((hone k).2 rfl)
    have hk' : k % 64 < 64 := Nat.mod_lt k (by decide)
    have hkbit := (hone k).2 rfl
    rw [hkw, hchanged _ hk'] at hkbit
    have hge : o ≤ k % 64 := by
      by_contra hlt
      rw [hlow _ (Nat.not_le.1 hlt)] at hkbit
      cases hkbit.1
    have hself : InLiteral o o := by
      have hin := hkbit.2
      unfold InLiteral at hin ⊢
      omega
    have hindex : 64 * w + o = k := (hone _).1 ((hchanged o ho).2 ⟨hclear, hself⟩)
    refine ⟨?_, fun j hj => ?_⟩
    · rw [hret, ← hindex] at hk
      exact (toInt32_eq_self_iff _).1 hk
    · rw [← hchanged j hj, hone, ← hindex]
      omega
  · rintro ⟨hint, hone⟩
    refine ⟨fun _ => ⟨64 * w + o, by rw [hret, toInt32_of_lt hint], fun j => ⟨fun hne => ?_, ?_⟩⟩, fun hall => ?_⟩
    · have hj := hword j hne
      have hj' : j % 64 < 64 := Nat.mod_lt j (by decide)
      rw [hj, hchanged _ hj', hone _ hj'] at hne
      omega
    · rintro rfl
      exact (hchanged o ho).2 ((hone o ho).2 rfl)
    · have hset := hall _ hleast.1.1
      rw [hleast.1.2] at hset
      cases hset

end

theorem takesOne_iff (s : BitmapState 64) : TakesOne s ↔ LowestTakable s := by
  rcases bitmapAllocateFrom_cases s s.map.slotsSize 0 (by omega) with ⟨hrun, hfull⟩ |
    ⟨w, o, hw, ho, hfull, hclear, hlow, hret, hst⟩
  · have hall : ∀ k < s.capacity, s.bit k = true := by
      intro k hk
      unfold BitmapState.capacity at hk
      rw [BitmapState.bit, hfull _ (by omega), BitVec.getLsbD_allOnes, decide_eq_true (Nat.mod_lt k (by decide))]
    have hboth := takesOne_of_full hall hrun
    exact iff_of_true hboth.1 hboth.2
  · have hleast := isLeast_clear (by omega) ho hfull hclear hlow
    have hbits : ∀ j, (bitmapAllocateSlot s).2.bit j = (s.setWord w (s.word w ||| intBit 64 o)).bit j := by
      intro j
      rw [bitmapAllocateSlot, hst, bit_count]
    rw [takesOne_of_clear ho hleast hret hbits]
    constructor
    · intro h k hk
      obtain rfl : k = 64 * w + o := Nat.le_antisymm (hk.2 hleast.1) (hleast.2 hk.1)
      rwa [slot_div w ho, slot_mod w ho]
    · intro h
      have hslot := h _ hleast
      rwa [slot_div w ho, slot_mod w ho] at hslot

/-- **Exactly which slots each function addresses right.** -/
theorem bitmap64_right_iff (ndebug : Bool) (s : BitmapState 64) (k : Nat) (hk : k < s.capacity) :
    (bitmapIsUsed s k = s.bit k ↔ SlotReadable (s.word (k / 64)) (k % 64)) ∧
      (SetsBit s k ↔ SlotSettable (s.word (k / 64)) (k % 64)) ∧
      (FreesAtMost ndebug s k ↔ (ndebug = true ∨ s.map.slotsSize > wrap32 k → FreedRight s k)) ∧
      (TakesOne s ↔ LowestTakable s) :=
  ⟨bitmapIsUsed64_iff s k, setsBit_iff hk, freesAtMost_iff ndebug s k, takesOne_iff s⟩

/-- One word at `0x1000`. -/
def oneWord (w : BitVec 64) : BitmapState 64 := ⟨⟨1, 64, 0, 0x1000⟩, fun _ => w⟩

theorem bitmap64_right_iff_oneWord :
    (bitmapIsUsed (oneWord 5) 2 = (oneWord 5).bit 2 ↔ SlotReadable ((oneWord 5).word (2 / 64)) (2 % 64)) ∧
      (SetsBit (oneWord 5) 2 ↔ SlotSettable ((oneWord 5).word (2 / 64)) (2 % 64)) ∧
      (FreesAtMost true (oneWord 5) 2 ↔
        (true = true ∨ (oneWord 5).map.slotsSize > wrap32 2 → FreedRight (oneWord 5) 2)) ∧
      (TakesOne (oneWord 5) ↔ LowestTakable (oneWord 5)) :=
  bitmap64_right_iff true (oneWord 5) 2 (by decide)

/-- With the lower half full, slot 32 is given out and nothing is marked; slot 32 is then read as slot 0, setting it
changes nothing, and freeing it frees slot 0. -/
theorem bitmap64_slot32_wrong :
    (bitmapAllocateSlot (oneWord 0xffffffff)).1 = 32 ∧
      (∀ k < 64, (bitmapAllocateSlot (oneWord 0xffffffff)).2.bit k = (oneWord 0xffffffff).bit k) ∧
      ¬ TakesOne (oneWord 0xffffffff) ∧
      bitmapIsUsed (oneWord 0xffffffff) 32 = true ∧ (oneWord 0xffffffff).bit 32 = false ∧
      ¬ SetsBit (oneWord 0xffffffff) 32 ∧ ¬ FreesAtMost true (oneWord 0xffffffff) 32 := by
  have hret : (bitmapAllocateSlot (oneWord 0xffffffff)).1 = 32 := by decide
  have hsame : ∀ k < 64, (bitmapAllocateSlot (oneWord 0xffffffff)).2.bit k = (oneWord 0xffffffff).bit k := by decide
  refine ⟨hret, hsame, fun h => ?_, by decide, by decide, fun h => ?_, fun h => ?_⟩
  · obtain ⟨k, hk, hone⟩ := h.free ⟨32, by decide, by decide⟩
    obtain rfl : k = 32 := by omega
    exact (hone 32).2 rfl (hsame 32 (by decide))
  · exact absurd (h 32) (by decide)
  · obtain ⟨s', hs'⟩ : ∃ s', bitmapFreeSlot true (oneWord 0xffffffff) 32 = .ok s' := bitmapFreeSlot64_ok (Or.inl rfl)
    have hfreed := (bitmapFreeSlot64_bit hs' 0).not.2 fun hbit => hbit.2 ⟨rfl, Or.inl rfl⟩
    exact hfreed ((h s' hs' 0 (by decide)).trans (by decide))

end RiscvOs

import RiscvOs.Bitmap
import RiscvOs.FirstFit
/-!
# The bitmap as a set of slots

With 32-bit words, each operation of `bitmap.c` is one operation on the set of used slots (`BitmapState.used`):
allocation is first fit over the slots in ascending order, freeing erases, marking adds a span.
-/
namespace RiscvOs

variable {xlen : Nat}

/-- Bit `k` of the array at `slots_ptr`, whether or not `slots_size` covers it. -/
def BitmapState.bit (s : BitmapState xlen) (k : Nat) : Bool := (s.word (k / xlen)).getLsbD (k % xlen)

def BitmapState.capacity (s : BitmapState xlen) : Nat := s.map.slotsSize * xlen

/-- The slots in use. -/
def BitmapState.used (s : BitmapState xlen) : Finset Nat := (Finset.range s.capacity).filter (fun k => s.bit k = true)

theorem BitmapState.mem_used {s : BitmapState xlen} {k : Nat} : k ∈ s.used ↔ k < s.capacity ∧ s.bit k = true := by
  simp [BitmapState.used]

/-! ## One word, one bit -/

theorem getLsbD_intBit {o : Nat} (ho : o < 32) (j : Nat) : (intBit 32 o).getLsbD j = decide (j = o) := by
  rw [intBit, BitVec.signExtend_eq, Nat.mod_eq_of_lt ho, BitVec.getLsbD_shiftLeft]
  by_cases h : j = o
  · simp [h, ho]
  · simp only [BitVec.getLsbD_one, h, decide_false, Bool.and_eq_false_iff]
    simp; omega

theorem uintBit_eq_intBit (o : Nat) : uintBit 32 o = intBit 32 o := by
  rw [uintBit, intBit, BitVec.signExtend_eq, BitVec.setWidth_eq]

theorem one_and_shift_ne_zero (x : BitVec xlen) (i : Nat) :
    (1 : BitVec xlen) &&& (x >>> i) ≠ 0 ↔ x.getLsbD i = true := by
  have hbit : ∀ j, ((1 : BitVec xlen) &&& (x >>> i)).getLsbD j = (decide (j = 0) && x.getLsbD i) := by
    intro j
    by_cases hj : j = 0
    · subst hj
      by_cases hw : 0 < xlen
      · simp [hw]
      · simp [BitVec.getLsbD_of_ge x i (by omega)]
    · simp [BitVec.getLsbD_ofNat, hj, Nat.testBit_one_eq_true_iff_self_eq_zero]
  constructor
  · intro h
    by_contra hx
    exact h (BitVec.eq_of_getLsbD_eq (fun j _ => by rw [hbit]; simp [hx]))
  · intro hx h0
    have h := hbit 0
    rw [h0] at h
    simp [hx] at h

theorem countTrailingZeroesFrom_spec (x : BitVec xlen) : ∀ (left i : Nat), (∀ j < i, x.getLsbD j = false) →
    (∃ j < i + left, x.getLsbD j = true) →
    countTrailingZeroesFrom x left i < i + left ∧ x.getLsbD (countTrailingZeroesFrom x left i) = true ∧
      ∀ j < countTrailingZeroesFrom x left i, x.getLsbD j = false
  | 0, i, hlow, ⟨j, hj, hx⟩ => by rw [hlow j (by omega)] at hx; cases hx
  | left + 1, i, hlow, hex => by
    rw [countTrailingZeroesFrom]
    by_cases hi : x.getLsbD i = true
    · rw [if_pos ((one_and_shift_ne_zero x i).2 hi)]
      exact ⟨by omega, hi, hlow⟩
    · rw [if_neg (fun h => hi ((one_and_shift_ne_zero x i).1 h))]
      have hlow' : ∀ j < i + 1, x.getLsbD j = false := by
        intro j hj
        rcases Nat.lt_succ_iff_lt_or_eq.1 hj with h | rfl
        · exact hlow j h
        · simpa using hi
      have hex' : ∃ j < i + 1 + left, x.getLsbD j = true := by
        obtain ⟨j, hj, hx⟩ := hex
        exact ⟨j, by omega, hx⟩
      have := countTrailingZeroesFrom_spec x left (i + 1) hlow' hex'
      exact ⟨by omega, this.2⟩

theorem countTrailingZeroes_not {w : BitVec xlen} (hw : w ≠ BitVec.allOnes xlen) :
    countTrailingZeroes (~~~w) < xlen ∧ w.getLsbD (countTrailingZeroes (~~~w)) = false ∧
      ∀ j < countTrailingZeroes (~~~w), w.getLsbD j = true := by
  have hex : ∃ j < xlen, (~~~w).getLsbD j = true := by
    by_contra hall
    push Not at hall
    apply hw
    apply BitVec.eq_of_getLsbD_eq
    intro j hj
    have := hall j hj
    simp only [BitVec.getLsbD_not, hj, decide_true, Bool.true_and] at this
    rw [BitVec.getLsbD_allOnes, decide_eq_true hj]
    simpa using this
  obtain ⟨hlt, hset, hlow⟩ := countTrailingZeroesFrom_spec (~~~w) xlen 0 (by omega) (by simpa using hex)
  rw [Nat.zero_add] at hlt
  refine ⟨hlt, ?_, fun j hj => ?_⟩
  · have := hset
    rw [BitVec.getLsbD_not] at this
    simpa [countTrailingZeroes, hlt] using this
  · have := hlow j hj
    rw [BitVec.getLsbD_not] at this
    have hjx : j < xlen := Nat.lt_trans hj hlt
    simpa [hjx] using this

/-! ## Writing one word -/

@[simp] theorem BitmapState.setWord_map (s : BitmapState xlen) (i : Nat) (v : BitVec xlen) :
    (s.setWord i v).map = s.map := rfl

@[simp] theorem BitmapState.capacity_setWord (s : BitmapState xlen) (i : Nat) (v : BitVec xlen) :
    (s.setWord i v).capacity = s.capacity := rfl

theorem BitmapState.used_count (s : BitmapState xlen) (c : Nat) :
    ({ s with map.freeSlotsCount := c } : BitmapState xlen).used = s.used := rfl

theorem BitmapState.word_setWord (s : BitmapState 32) (i j : Nat) (v : BitVec 32) :
    (s.setWord i v).word j = if j = i then v else s.word j := by
  simp only [BitmapState.setWord, BitmapState.word, Mem.store_apply]
  by_cases h : j = i
  · simp [h]
  · rw [if_neg h, if_neg (by omega)]

theorem BitmapState.bit_setWord_or (s : BitmapState 32) (i : Nat) {o : Nat} (ho : o < 32) (k : Nat) :
    (s.setWord i (s.word i ||| intBit 32 o)).bit k = (decide (k = 32 * i + o) || s.bit k) := by
  rw [BitmapState.bit, BitmapState.word_setWord]
  by_cases hk : k / 32 = i
  · have he : k % 32 = o ↔ k = 32 * i + o := by omega
    rw [if_pos hk, BitVec.getLsbD_or, getLsbD_intBit ho, BitmapState.bit, hk, Bool.or_comm]
    simp only [he]
  · have hne : k ≠ 32 * i + o := by omega
    rw [if_neg hk, decide_eq_false hne, Bool.false_or, BitmapState.bit]

theorem BitmapState.bit_setWord_andNot (s : BitmapState 32) (i : Nat) {o : Nat} (ho : o < 32) (k : Nat) :
    (s.setWord i (s.word i &&& ~~~ intBit 32 o)).bit k = (!decide (k = 32 * i + o) && s.bit k) := by
  rw [BitmapState.bit, BitmapState.word_setWord]
  by_cases hk : k / 32 = i
  · have he : k % 32 = o ↔ k = 32 * i + o := by omega
    have hlt : k % 32 < 32 := Nat.mod_lt _ (by decide)
    rw [if_pos hk, BitVec.getLsbD_and, BitVec.getLsbD_not, getLsbD_intBit ho, BitmapState.bit, hk, Bool.and_comm]
    simp only [he, hlt, decide_true, Bool.true_and]
  · have hne : k ≠ 32 * i + o := by omega
    rw [if_neg hk, decide_eq_false hne, Bool.not_false, Bool.true_and, BitmapState.bit]

/-! ## `_enable_bit` and `bitmap_mark_as_used` -/

@[simp] theorem enableBit_map (s : BitmapState xlen) (k : Nat) : (enableBit s k).2.map = s.map := by
  unfold enableBit; simp only; split <;> rfl

theorem used_enableBit (s : BitmapState 32) (k : Nat) :
    (enableBit s k).2.used = s.used ∪ (Finset.range s.capacity).filter (fun j => j = k) := by
  ext j
  simp only [BitmapState.mem_used, Finset.mem_union, Finset.mem_filter, Finset.mem_range, BitmapState.capacity,
    enableBit_map]
  by_cases hk : k / 32 < s.map.slotsSize
  · have hb : (enableBit s k).2.bit j = (decide (j = k) || s.bit j) := by
      have hk' : 32 * (k / 32) + k % 32 = k := by omega
      simp only [enableBit, hk, if_true, uintBit_eq_intBit]
      rw [BitmapState.bit_setWord_or s _ (Nat.mod_lt _ (by decide)), hk']
    rw [hb, Bool.or_eq_true, decide_eq_true_eq]
    tauto
  · have hb : (enableBit s k).2 = s := by simp [enableBit, hk]
    rw [hb]
    constructor
    · exact Or.inl
    · rintro (h | ⟨hj, rfl⟩)
      · exact h
      · omega

@[simp] theorem bitmapMarkAsUsed_map (s : BitmapState xlen) (f c : Nat) : (bitmapMarkAsUsed s f c).map = s.map := by
  unfold bitmapMarkAsUsed
  simp only
  generalize List.range' f (wrap32 (f + c) - f) = l
  induction l generalizing s with
  | nil => rfl
  | cons k l ih => rw [List.foldl_cons, ih, enableBit_map]

theorem used_foldl_enableBit : ∀ (l : List Nat) (s : BitmapState 32),
    (l.foldl (fun s i => (enableBit s i).2) s).used = s.used ∪ (Finset.range s.capacity).filter (fun j => j ∈ l)
  | [], s => by simp
  | k :: l, s => by
    rw [List.foldl_cons, used_foldl_enableBit l, used_enableBit]
    ext j
    simp only [BitmapState.capacity, enableBit_map, Finset.mem_union, Finset.mem_filter, List.mem_cons]
    tauto

/-- **Marking adds the slots of the span the bitmap has**, up to where its end wraps. -/
theorem used_bitmapMarkAsUsed (s : BitmapState 32) (f c : Nat) :
    (bitmapMarkAsUsed s f c).used =
      s.used ∪ (Finset.range s.capacity).filter (fun j => f ≤ j ∧ j < wrap32 (f + c)) := by
  unfold bitmapMarkAsUsed
  simp only
  rw [used_foldl_enableBit]
  congr 1
  apply Finset.filter_congr
  intro j _
  rw [List.mem_range'_1]
  omega

/-! ## `bitmap_init` -/

theorem wordAlignedMemset_apply (v : BitVec 32) : ∀ (n : Nat) (m : Mem 32) (p a : Nat),
    wordAlignedMemset m p v n a = if ∃ i < n, a = p + i * 4 then v else m a
  | 0, m, p, a => by simp [wordAlignedMemset]
  | n + 1, m, p, a => by
    rw [wordAlignedMemset, wordAlignedMemset_apply v n, Mem.store_apply]
    have hsplit : (∃ i < n + 1, a = p + i * 4) ↔ a = p ∨ ∃ i < n, a = p + 32 / 8 + i * 4 := by
      constructor
      · rintro ⟨i, hi, rfl⟩
        cases i with
        | zero => exact Or.inl (by omega)
        | succ i => exact Or.inr ⟨i, by omega, by omega⟩
      · rintro (rfl | ⟨i, hi, rfl⟩)
        · exact ⟨0, by omega, by omega⟩
        · exact ⟨i + 1, by omega, by omega⟩
    simp only [hsplit]
    by_cases ha : a = p <;> simp [ha]

/-- **`bitmap_init` on `n` words**: every slot is free, and no memory outside the words has changed. -/
theorem bitmapInit_ok (ndebug : Bool) (s : BitmapState 32) {slots n : Nat} (hs : slots ≠ 0) (hn : n ≠ 0) :
    ∃ s', bitmapInit ndebug s slots n = .ok s' ∧ s'.map = ⟨n, wrap32 (n * 32), 0, slots⟩ ∧ s'.used = ∅ ∧
      ∀ a, a < slots ∨ slots + n * 4 ≤ a → s'.mem a = s.mem a := by
  refine ⟨⟨⟨n, wrap32 (n * 32), 0, slots⟩, wordAlignedMemset s.mem slots 0 n⟩, ?_, rfl, ?_, ?_⟩
  · simp [bitmapInit, debugAssert, hs, hn, bind, Except.bind, pure, Except.pure]
  · ext k
    simp only [BitmapState.mem_used, Finset.notMem_empty, iff_false, not_and]
    intro hk
    have hk' : ∃ i < n, slots + k / 32 * (32 / 8) = slots + i * 4 :=
      ⟨k / 32, by simp only [BitmapState.capacity] at hk; omega, rfl⟩
    have hword : wordAlignedMemset s.mem slots 0 n (slots + k / 32 * (32 / 8)) = 0 := by
      rw [wordAlignedMemset_apply, if_pos hk']
    simp only [BitmapState.bit, BitmapState.word, hword]
    simp
  · intro a ha
    have hout : ¬ ∃ i < n, a = slots + i * 4 := by
      rintro ⟨i, hi, rfl⟩
      omega
    simp only [wordAlignedMemset_apply, if_neg hout]

/-! ## `bitmap_allocate_slot` -/

/-- **Every way through the search**: all words are full, or it stops at the first word that is not, at that word's
lowest clear bit. -/
theorem bitmapAllocateFrom_cases (s : BitmapState xlen) : ∀ (left i : Nat),
    (∀ j < i, s.word j = BitVec.allOnes xlen) →
    (bitmapAllocateFrom s left i = (-1, s) ∧ ∀ j < i + left, s.word j = BitVec.allOnes xlen) ∨
    ∃ w o, w < i + left ∧ o < xlen ∧ (∀ j < w, s.word j = BitVec.allOnes xlen) ∧ (s.word w).getLsbD o = false ∧
      (∀ j < o, (s.word w).getLsbD j = true) ∧
      (bitmapAllocateFrom s left i).1 = toInt32 (xlen * w + o) ∧
      (bitmapAllocateFrom s left i).2 =
        { s.setWord w (s.word w ||| intBit xlen o) with map.freeSlotsCount := sub32 s.map.freeSlotsCount 1 }
  | 0, i, hfull => Or.inl ⟨rfl, by simpa using hfull⟩
  | left + 1, i, hfull => by
    rw [bitmapAllocateFrom]
    by_cases hi : s.word i = BitVec.allOnes xlen
    · rw [if_pos hi]
      have hfull' : ∀ j < i + 1, s.word j = BitVec.allOnes xlen := by
        intro j hj
        rcases Nat.lt_succ_iff_lt_or_eq.1 hj with h | rfl
        · exact hfull j h
        · exact hi
      have := bitmapAllocateFrom_cases s left (i + 1) hfull'
      rwa [show i + 1 + left = i + (left + 1) by omega] at this
    · rw [if_neg hi]
      obtain ⟨hlt, hclear, hlow⟩ := countTrailingZeroes_not hi
      exact Or.inr ⟨i, _, by omega, hlt, hfull, hclear, hlow, rfl, rfl⟩

theorem getLsbD_of_word_full {s : BitmapState 32} {k : Nat} (h : s.word (k / 32) = BitVec.allOnes 32) :
    s.bit k = true := by
  rw [BitmapState.bit, h, BitVec.getLsbD_allOnes]
  simpa using Nat.mod_lt k (by decide : 0 < 32)

/-- **Allocation is first fit**: with no slot free it changes nothing and returns `-1`; otherwise it takes the lowest
free slot, and counts it. -/
theorem bitmapAllocateSlot_spec (s : BitmapState 32) :
    match FirstFit.alloc (List.range s.capacity) s.used with
    | none   => bitmapAllocateSlot s = (-1, s)
    | some k => (bitmapAllocateSlot s).1 = toInt32 k ∧ (bitmapAllocateSlot s).2.used = insert k s.used ∧
        (bitmapAllocateSlot s).2.map = { s.map with freeSlotsCount := sub32 s.map.freeSlotsCount 1 } := by
  rcases bitmapAllocateFrom_cases s s.map.slotsSize 0 (by omega) with ⟨hr, hfull⟩ |
    ⟨w, o, hw, ho, hfull, hclear, hlow, hret, hst⟩
  · have hnone : FirstFit.alloc (List.range s.capacity) s.used = none := by
      rw [FirstFit.alloc_eq_none]
      intro k hk
      rw [List.mem_range] at hk
      have hk' : k / 32 < 0 + s.map.slotsSize := by simp only [BitmapState.capacity] at hk; omega
      exact BitmapState.mem_used.2 ⟨hk, getLsbD_of_word_full (hfull _ hk')⟩
    rw [hnone]
    exact hr
  · have hcap : 32 * w + o < s.capacity := by simp only [BitmapState.capacity]; omega
    have hbit : s.bit (32 * w + o) = false := by
      rw [BitmapState.bit, show (32 * w + o) / 32 = w by omega, show (32 * w + o) % 32 = o by omega, hclear]
    have hsome : FirstFit.alloc (List.range s.capacity) s.used = some (32 * w + o) := by
      rw [FirstFit.alloc_range_eq_some]
      refine ⟨hcap, by simp [BitmapState.mem_used, hbit], fun j hj => ?_⟩
      refine BitmapState.mem_used.2 ⟨by omega, ?_⟩
      rcases Nat.lt_or_ge (j / 32) w with h | h
      · exact getLsbD_of_word_full (hfull _ h)
      · have hjw : j / 32 = w := by omega
        rw [BitmapState.bit, hjw]
        exact hlow _ (by omega)
    rw [hsome]
    refine ⟨hret, ?_, by rw [bitmapAllocateSlot, hst]; rfl⟩
    ext k
    rw [bitmapAllocateSlot, hst, BitmapState.used_count, Finset.mem_insert, BitmapState.mem_used,
      BitmapState.mem_used, BitmapState.capacity_setWord, BitmapState.bit_setWord_or s w ho, Bool.or_eq_true,
      decide_eq_true_eq]
    constructor
    · rintro ⟨hk, rfl | hb⟩
      · exact Or.inl rfl
      · exact Or.inr ⟨hk, hb⟩
    · rintro (rfl | ⟨hk, hb⟩)
      · exact ⟨hcap, Or.inl rfl⟩
      · exact ⟨hk, Or.inr hb⟩

theorem bitmapAllocateSlot_slotsSize (s : BitmapState 32) :
    (bitmapAllocateSlot s).2.map.slotsSize = s.map.slotsSize := by
  have h := bitmapAllocateSlot_spec s
  cases ha : FirstFit.alloc (List.range s.capacity) s.used with
  | none => rw [ha] at h; rw [h]
  | some k => rw [ha] at h; rw [h.2.2]

theorem capacity_bitmapAllocateSlot (s : BitmapState 32) : (bitmapAllocateSlot s).2.capacity = s.capacity := by
  simp only [BitmapState.capacity, bitmapAllocateSlot_slotsSize]

/-! ## `bitmap_free_slot` -/

/-- **Freeing a slot the assertion admits** erases it, and counts it if it was in use. -/
theorem bitmapFreeSlot_ok (ndebug : Bool) (s : BitmapState 32) {k : Nat} (hk : k < s.map.slotsSize)
    (hlt : k < 2 ^ 32) :
    ∃ s', bitmapFreeSlot ndebug s k = .ok s' ∧ s'.used = s.used.erase k ∧
      s'.map = { s.map with
        freeSlotsCount := if k ∈ s.used then wrap32 (s.map.freeSlotsCount + 1) else s.map.freeSlotsCount } := by
  have hcap : k < s.capacity := by simp only [BitmapState.capacity]; omega
  have hclear := BitmapState.bit_setWord_andNot s (k / 32) (Nat.mod_lt k (by decide : 0 < 32))
  have hk' : 32 * (k / 32) + k % 32 = k := by omega
  rw [hk'] at hclear
  generalize hw : s.setWord (k / 32) (s.word (k / 32) &&& ~~~ intBit 32 (k % 32)) = t at hclear
  have hmap : t.map = s.map := by rw [← hw]; rfl
  have hused : t.used = s.used.erase k := by
    ext j
    simp only [BitmapState.mem_used, Finset.mem_erase, BitmapState.capacity, hmap, hclear j, Bool.and_eq_true,
      Bool.not_eq_true', decide_eq_false_iff_not]
    tauto
  have hsame : t.word (k / 32) = s.word (k / 32) ↔ k ∉ s.used := by
    constructor
    · intro h hm
      have hb : t.bit k = s.bit k := by rw [BitmapState.bit, BitmapState.bit, h]
      simp [hclear k, (BitmapState.mem_used.1 hm).2] at hb
    · intro hm
      have hk0 : (s.word (k / 32)).getLsbD (k % 32) = false := by
        simpa [BitmapState.mem_used, hcap, BitmapState.bit] using hm
      rw [← hw, BitmapState.word_setWord, if_pos rfl]
      apply BitVec.eq_of_getLsbD_eq
      intro j hj
      rw [BitVec.getLsbD_and, BitVec.getLsbD_not, getLsbD_intBit (Nat.mod_lt k (by decide))]
      by_cases h : j = k % 32
      · simp [h, hk0]
      · simp [h, hj]
  by_cases hm : k ∈ s.used
  · refine ⟨{ t with map.freeSlotsCount := wrap32 (s.map.freeSlotsCount + 1) }, ?_, hused, ?_⟩
    · simp [bitmapFreeSlot, debugAssert, wrap32_of_lt hlt, hk, hw, hsame, hm, bind, Except.bind, pure, Except.pure]
    · simp [hm, hmap]
  · refine ⟨t, ?_, hused, ?_⟩
    · simp [bitmapFreeSlot, debugAssert, wrap32_of_lt hlt, hk, hw, hsame, hm, bind, Except.bind, pure, Except.pure]
    · simp [hm, hmap]

end RiscvOs

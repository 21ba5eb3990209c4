import RiscvOs.BitmapSlots
/-!
# What `bitmap_is_used` reads after an operation

Two bitmaps over the same words are the same state when they agree on every slot and on the memory outside the words
(`BitmapState.eq_of_bit`).  Marking is read off that: it adds a span, so spans can be marked twice and in any order.
-/
namespace RiscvOs

theorem bitmapIsUsed_eq_bit (s : BitmapState 32) (k : Nat) : bitmapIsUsed s k = s.bit k := by
  have ho : k % 32 < 32 := Nat.mod_lt _ (by decide)
  have hbit : ∀ j, (s.word (k / 32) &&& intBit 32 (k % 32)).getLsbD j = (decide (j = k % 32) && s.bit k) := by
    intro j
    rw [BitVec.getLsbD_and, getLsbD_intBit ho, BitmapState.bit, Bool.and_comm]
    by_cases h : j = k % 32
    · rw [h]
    · simp only [h, decide_false, Bool.false_and]
  rw [bitmapIsUsed]
  cases hk : s.bit k with
  | false =>
    have hzero : s.word (k / 32) &&& intBit 32 (k % 32) = 0 := by
      apply BitVec.eq_of_getLsbD_eq
      intro j _
      rw [hbit, hk, Bool.and_false]
      simp
    rw [hzero]
    rfl
  | true =>
    rw [bne_iff_ne]
    intro hzero
    have hset := hbit (k % 32)
    rw [hzero, hk] at hset
    simp at hset

/-- No word of the bitmap is at `a`. -/
def BitmapState.Outside (s : BitmapState 32) (a : Nat) : Prop := ∀ i < s.map.slotsSize, a ≠ s.map.slotsPtr + i * 4

theorem BitmapState.word_eq_of_bit {s t : BitmapState 32} {i : Nat}
    (h : ∀ o < 32, t.bit (32 * i + o) = s.bit (32 * i + o)) : t.word i = s.word i := by
  apply BitVec.eq_of_getLsbD_eq
  intro o ho
  have hslot := h o ho
  simp only [BitmapState.bit] at hslot
  rwa [show (32 * i + o) / 32 = i by omega, show (32 * i + o) % 32 = o by omega] at hslot

theorem BitmapState.eq_of_bit {s t : BitmapState 32} (hmap : t.map = s.map)
    (hbit : ∀ k < s.capacity, t.bit k = s.bit k) (hmem : ∀ a, s.Outside a → t.mem a = s.mem a) : t = s := by
  obtain ⟨map, m⟩ := s
  obtain ⟨map', m'⟩ := t
  obtain rfl : map' = map := hmap
  congr 1
  funext a
  by_cases hout : BitmapState.Outside ⟨map', m⟩ a
  · exact hmem a hout
  · unfold BitmapState.Outside at hout
    push Not at hout
    obtain ⟨i, hi, rfl⟩ := hout
    refine @BitmapState.word_eq_of_bit ⟨map', m⟩ ⟨map', m'⟩ i fun o ho => hbit _ ?_
    simp only [BitmapState.capacity] at hi ⊢
    omega

/-! ## `bitmap_mark_as_used` -/

theorem enableBit_outside (s : BitmapState 32) (k : Nat) {a : Nat} (ha : s.Outside a) :
    (enableBit s k).2.mem a = s.mem a := by
  unfold enableBit
  simp only
  split
  case isTrue hk => exact (Mem.store_apply _ _ _ _).trans (if_neg (ha _ hk))
  case isFalse => rfl

@[simp] theorem capacity_bitmapMarkAsUsed (s : BitmapState 32) (f c : Nat) :
    (bitmapMarkAsUsed s f c).capacity = s.capacity := by
  simp only [BitmapState.capacity, bitmapMarkAsUsed_map]

@[simp] theorem outside_bitmapMarkAsUsed (s : BitmapState 32) (f c a : Nat) :
    (bitmapMarkAsUsed s f c).Outside a ↔ s.Outside a := by
  simp only [BitmapState.Outside, bitmapMarkAsUsed_map]

theorem bitmapMarkAsUsed_outside (s : BitmapState 32) (f c : Nat) {a : Nat} (ha : s.Outside a) :
    (bitmapMarkAsUsed s f c).mem a = s.mem a := by
  unfold bitmapMarkAsUsed
  simp only
  generalize List.range' f (wrap32 (f + c) - f) = l
  induction l generalizing s with
  | nil => rfl
  | cons k l ih =>
    have ha' : (enableBit s k).2.Outside a := by
      unfold BitmapState.Outside
      rwa [enableBit_map]
    rw [List.foldl_cons, ih _ ha', enableBit_outside s k ha]

theorem bit_bitmapMarkAsUsed (s : BitmapState 32) (f c : Nat) {k : Nat} (hk : k < s.capacity) :
    (bitmapMarkAsUsed s f c).bit k = (s.bit k || decide (f ≤ k ∧ k < wrap32 (f + c))) := by
  have hmem : k ∈ (bitmapMarkAsUsed s f c).used ↔ k ∈ s.used ∨ f ≤ k ∧ k < wrap32 (f + c) := by
    rw [used_bitmapMarkAsUsed, Finset.mem_union, Finset.mem_filter, Finset.mem_range, and_iff_right hk]
  rw [BitmapState.mem_used, BitmapState.mem_used, capacity_bitmapMarkAsUsed, and_iff_right hk, and_iff_right hk] at hmem
  rw [Bool.eq_iff_iff, hmem, Bool.or_eq_true, decide_eq_true_eq]

theorem bitmapMarkAsUsed_self (s : BitmapState 32) (f c : Nat) :
    bitmapMarkAsUsed (bitmapMarkAsUsed s f c) f c = bitmapMarkAsUsed s f c := by
  refine BitmapState.eq_of_bit (bitmapMarkAsUsed_map _ _ _) (fun k hk => ?_)
    (fun a ha => bitmapMarkAsUsed_outside _ f c ha)
  rw [capacity_bitmapMarkAsUsed] at hk
  rw [bit_bitmapMarkAsUsed _ f c (by simpa using hk), bit_bitmapMarkAsUsed s f c hk, Bool.or_assoc, Bool.or_self]

theorem bitmapMarkAsUsed_comm (s : BitmapState 32) (f c g d : Nat) :
    bitmapMarkAsUsed (bitmapMarkAsUsed s f c) g d = bitmapMarkAsUsed (bitmapMarkAsUsed s g d) f c := by
  refine BitmapState.eq_of_bit (by simp only [bitmapMarkAsUsed_map]) (fun k hk => ?_) (fun a ha => ?_)
  · rw [capacity_bitmapMarkAsUsed, capacity_bitmapMarkAsUsed] at hk
    rw [bit_bitmapMarkAsUsed _ g d (by simpa using hk), bit_bitmapMarkAsUsed _ f c hk,
      bit_bitmapMarkAsUsed _ f c (by simpa using hk), bit_bitmapMarkAsUsed _ g d hk, Bool.or_right_comm]
  · rw [outside_bitmapMarkAsUsed, outside_bitmapMarkAsUsed] at ha
    rw [bitmapMarkAsUsed_outside _ g d (by simpa using ha), bitmapMarkAsUsed_outside _ f c ha,
      bitmapMarkAsUsed_outside _ f c (by simpa using ha), bitmapMarkAsUsed_outside _ g d ha]

/-- The spans are marked one after another. -/
def markSpans (s : BitmapState 32) (spans : List (Nat × Nat)) : BitmapState 32 :=
  spans.foldl (fun s span => bitmapMarkAsUsed s span.1 span.2) s

theorem markSpans_perm (s : BitmapState 32) {spans spans' : List (Nat × Nat)} (h : spans.Perm spans') :
    markSpans s spans = markSpans s spans' := by
  have hcomm : RightCommutative (fun (s : BitmapState 32) (span : Nat × Nat) => bitmapMarkAsUsed s span.1 span.2) :=
    ⟨fun s a b => bitmapMarkAsUsed_comm s a.1 a.2 b.1 b.2⟩
  exact h.foldl_eq s

/-- **Marking a span**: the slots in use are those of before and those of the span the bitmap has, nothing outside the
words is written, and spans may overlap and come in any order. -/
theorem bitmapMarkAsUsed_marks (s : BitmapState 32) (f c : Nat) (hfc : f + c < 2 ^ 32) :
    (∀ k < s.map.slotsSize * 32,
      bitmapIsUsed (bitmapMarkAsUsed s f c) k = true ↔ bitmapIsUsed s k = true ∨ f ≤ k ∧ k < f + c) ∧
    (∀ a, s.Outside a → (bitmapMarkAsUsed s f c).mem a = s.mem a) ∧
    bitmapMarkAsUsed (bitmapMarkAsUsed s f c) f c = bitmapMarkAsUsed s f c ∧
    ∀ spans spans' : List (Nat × Nat), spans.Perm spans' → markSpans s spans = markSpans s spans' := by
  refine ⟨fun k hk => ?_, fun a => bitmapMarkAsUsed_outside s f c, bitmapMarkAsUsed_self s f c,
    fun _ _ => markSpans_perm s⟩
  rw [bitmapIsUsed_eq_bit, bitmapIsUsed_eq_bit, bit_bitmapMarkAsUsed s f c hk, wrap32_of_lt hfc, Bool.or_eq_true,
    decide_eq_true_eq]

/-- Two words with slots 0 and 2 of each in use. -/
def twoWords : BitmapState 32 := ⟨⟨2, 60, 0, 0x80001000⟩, fun _ => 5⟩

/-- The span runs past the end of the two words. -/
theorem bitmapMarkAsUsed_marks_twoWords :
    (∀ k < twoWords.map.slotsSize * 32,
      bitmapIsUsed (bitmapMarkAsUsed twoWords 30 40) k = true ↔ bitmapIsUsed twoWords k = true ∨ 30 ≤ k ∧ k < 30 + 40) ∧
    (∀ a, twoWords.Outside a → (bitmapMarkAsUsed twoWords 30 40).mem a = twoWords.mem a) ∧
    bitmapMarkAsUsed (bitmapMarkAsUsed twoWords 30 40) 30 40 = bitmapMarkAsUsed twoWords 30 40 ∧
    ∀ spans spans' : List (Nat × Nat), spans.Perm spans' → markSpans twoWords spans = markSpans twoWords spans' :=
  bitmapMarkAsUsed_marks twoWords 30 40 (by decide)

/-! ## `bitmap_allocate_slot` -/

theorem alloc_eq_none_iff_bit (s : BitmapState 32) :
    FirstFit.alloc (List.range s.capacity) s.used = none ↔ ∀ k < s.capacity, s.bit k = true := by
  rw [FirstFit.alloc_eq_none]
  constructor
  · intro h k hk
    exact (BitmapState.mem_used.1 (h k (List.mem_range.2 hk))).2
  · intro h k hk
    rw [List.mem_range] at hk
    exact BitmapState.mem_used.2 ⟨hk, h k hk⟩

theorem alloc_eq_some_iff_bit (s : BitmapState 32) {k : Nat} :
    FirstFit.alloc (List.range s.capacity) s.used = some k ↔
      k < s.capacity ∧ s.bit k = false ∧ ∀ j < k, s.bit j = true := by
  rw [FirstFit.alloc_range_eq_some]
  constructor
  · rintro ⟨hk, hfree, hlow⟩
    refine ⟨hk, ?_, fun j hj => (BitmapState.mem_used.1 (hlow j hj)).2⟩
    rwa [BitmapState.mem_used, and_iff_right hk, Bool.not_eq_true] at hfree
  · rintro ⟨hk, hfree, hlow⟩
    refine ⟨hk, ?_, fun j hj => BitmapState.mem_used.2 ⟨Nat.lt_trans hj hk, hlow j hj⟩⟩
    rw [BitmapState.mem_used, and_iff_right hk, hfree]
    exact Bool.false_ne_true

/-- **Allocation takes the lowest clear bit**, counts it and changes no other slot; with every bit set it returns `-1`
and leaves the bitmap as it is. -/
theorem bitmapAllocateSlot_lowest (s : BitmapState 32) (hcap : s.map.slotsSize * 32 ≤ 2 ^ 31) :
    ((∀ k < s.map.slotsSize * 32, s.bit k = true) → bitmapAllocateSlot s = (-1, s)) ∧
    (¬ (∀ k < s.map.slotsSize * 32, s.bit k = true) →
      ∃ k < s.map.slotsSize * 32, s.bit k = false ∧ (∀ j < k, s.bit j = true) ∧ (bitmapAllocateSlot s).1 = k ∧
        (∀ j < s.map.slotsSize * 32,
          bitmapIsUsed (bitmapAllocateSlot s).2 j = true ↔ bitmapIsUsed s j = true ∨ j = k) ∧
        (bitmapAllocateSlot s).2.map = { s.map with freeSlotsCount := sub32 s.map.freeSlotsCount 1 } ∧
        (0 < s.map.freeSlotsCount → s.map.freeSlotsCount < 2 ^ 32 →
          (bitmapAllocateSlot s).2.map.freeSlotsCount = s.map.freeSlotsCount - 1)) := by
  have hspec := bitmapAllocateSlot_spec s
  cases ha : FirstFit.alloc (List.range s.capacity) s.used with
  | none =>
    rw [ha] at hspec
    exact ⟨fun _ => hspec, fun hnot => absurd ((alloc_eq_none_iff_bit s).1 ha) hnot⟩
  | some k =>
    rw [ha] at hspec
    obtain ⟨hret, hused, hmap⟩ := hspec
    obtain ⟨hk, hclear, hlow⟩ := (alloc_eq_some_iff_bit s).1 ha
    refine ⟨fun hall => ?_, fun _ => ⟨k, hk, hclear, hlow, ?_, fun j hj => ?_, hmap, fun hpos hlt => ?_⟩⟩
    · rw [hall k hk] at hclear
      cases hclear
    · rw [hret, toInt32_of_lt (Nat.lt_of_lt_of_le hk hcap)]
    · have hmem : j ∈ (bitmapAllocateSlot s).2.used ↔ j = k ∨ j ∈ s.used := by rw [hused, Finset.mem_insert]
      change j < s.capacity at hj
      have hj' : j < (bitmapAllocateSlot s).2.capacity := by rwa [capacity_bitmapAllocateSlot]
      rw [BitmapState.mem_used, and_iff_right hj', BitmapState.mem_used, and_iff_right hj] at hmem
      rw [bitmapIsUsed_eq_bit, bitmapIsUsed_eq_bit, hmem, or_comm]
    · rw [hmap]
      exact sub32_of_le hpos hlt

/-- The first word is full, so slot 33 is the lowest free one. -/
def fullFirstWord : BitmapState 32 := ⟨⟨2, 31, 0, 0x80001000⟩, fun a => if a = 0x80001000 then 0xffffffff#32 else 1⟩

theorem bitmapAllocateSlot_lowest_fullFirstWord :
    ((∀ k < fullFirstWord.map.slotsSize * 32, fullFirstWord.bit k = true) →
      bitmapAllocateSlot fullFirstWord = (-1, fullFirstWord)) ∧
    (¬ (∀ k < fullFirstWord.map.slotsSize * 32, fullFirstWord.bit k = true) →
      ∃ k < fullFirstWord.map.slotsSize * 32, fullFirstWord.bit k = false ∧ (∀ j < k, fullFirstWord.bit j = true) ∧
        (bitmapAllocateSlot fullFirstWord).1 = k ∧
        (∀ j < fullFirstWord.map.slotsSize * 32,
          bitmapIsUsed (bitmapAllocateSlot fullFirstWord).2 j = true ↔ bitmapIsUsed fullFirstWord j = true ∨ j = k) ∧
        (bitmapAllocateSlot fullFirstWord).2.map =
          { fullFirstWord.map with freeSlotsCount := sub32 fullFirstWord.map.freeSlotsCount 1 } ∧
        (0 < fullFirstWord.map.freeSlotsCount → fullFirstWord.map.freeSlotsCount < 2 ^ 32 →
          (bitmapAllocateSlot fullFirstWord).2.map.freeSlotsCount = fullFirstWord.map.freeSlotsCount - 1)) :=
  bitmapAllocateSlot_lowest fullFirstWord (by decide)

end RiscvOs

import RiscvOs.BitmapCount
import RiscvOs.BitmapReads
/-!
# Releasing what was allocated

`bitmap_free_slot` asserts that the slot is below the number of words, where a bitmap has 32 slots a word.  A slot below
that number is released as it should be; any other stops the machine, a slot just returned by `bitmap_allocate_slot`
among them.
-/
namespace RiscvOs

/-! ## One release -/

theorem bitmapFreeSlot_assertion (s : BitmapState 32) {slot : Nat} (h : s.map.slotsSize ≤ wrap32 slot) :
    bitmapFreeSlot false s slot = .error (.assertion "map->slots_size > slot") := by
  rw [bitmapFreeSlot, debugAssert_bind, if_neg]
  simpa using h

theorem bitmapFreeSlot_admitted {s s' : BitmapState 32} {slot : Nat} (h : bitmapFreeSlot false s slot = .ok s') :
    wrap32 slot < s.map.slotsSize := by
  by_contra hge
  rw [bitmapFreeSlot_assertion s (Nat.le_of_not_lt hge)] at h
  cases h

theorem bitmapFreeSlot_outside {s s' : BitmapState 32} {slot : Nat} (h : bitmapFreeSlot false s slot = .ok s') {a : Nat}
    (ha : s.Outside a) : s'.mem a = s.mem a := by
  have hslot := bitmapFreeSlot_admitted h
  have hne := ha (wrap32 slot / 32) (Nat.lt_of_le_of_lt (Nat.div_le_self _ _) hslot)
  have hset : ∀ v, (s.setWord (wrap32 slot / 32) v).mem a = s.mem a := fun v =>
    (Mem.store_apply _ _ _ _).trans (if_neg hne)
  rw [bitmapFreeSlot, debugAssert_bind] at h
  split at h
  · simp only at h
    split at h
    · cases h
      exact hset _
    · cases h
      exact hset _
  · cases h

/-- The call returns, has cleared the slot and nothing else, has counted it if it was in use, and has otherwise left
everything as it was. -/
def FreesOnly (s : BitmapState 32) (slot : Nat) : Prop :=
  ∃ s', bitmapFreeSlot false s slot = .ok s' ∧
    (∀ k < s.map.slotsSize * 32, s'.bit k = (s.bit k && !decide (k = slot))) ∧
    s'.map = { s.map with
      freeSlotsCount := if s.bit slot = true then wrap32 (s.map.freeSlotsCount + 1) else s.map.freeSlotsCount } ∧
    (s.bit slot = true → s.map.slotsSize * 32 < 2 ^ 32 → s'.map.freeSlotsCount = s.map.freeSlotsCount + 1) ∧
    (s.bit slot = false → s' = s)

theorem freesOnly_iff {s : BitmapState 32} (hcount : s.capacity < 2 ^ 32 → s.Counted) {slot : Nat}
    (hlt : slot < 2 ^ 32) : FreesOnly s slot ↔ slot < s.map.slotsSize := by
  constructor
  · rintro ⟨s', h, -⟩
    have hslot := bitmapFreeSlot_admitted h
    rwa [wrap32_of_lt hlt] at hslot
  · intro hslot
    obtain ⟨s', h, hused, hmap⟩ := bitmapFreeSlot_ok false s hslot hlt
    have hcap' : s'.capacity = s.capacity := by simp only [BitmapState.capacity, hmap]
    have hin : slot < s.capacity := by
      simp only [BitmapState.capacity]
      omega
    have hmem : slot ∈ s.used ↔ s.bit slot = true := by rw [BitmapState.mem_used, and_iff_right hin]
    have hbit : ∀ k < s.capacity, s'.bit k = (s.bit k && !decide (k = slot)) := by
      intro k hk
      have hk' : k ∈ s'.used ↔ k ∈ s.used.erase slot := by rw [hused]
      rw [BitmapState.mem_used, Finset.mem_erase, BitmapState.mem_used, hcap', and_iff_right hk, and_iff_right hk]
        at hk'
      rw [Bool.eq_iff_iff, hk', Bool.and_eq_true, Bool.not_eq_true', decide_eq_false_iff_not, and_comm]
    simp only [hmem] at hmap
    refine ⟨s', h, hbit, hmap, fun hset hlt => ?_, fun hclear => ?_⟩
    · have hfree := (BitmapState.counted_iff s).1 (hcount hlt)
      have hpos : 0 < s.used.card := Finset.card_pos.2 ⟨slot, hmem.2 hset⟩
      change s.capacity < 2 ^ 32 at hlt
      rw [hmap, if_pos hset]
      exact wrap32_of_lt (by omega)
    · refine BitmapState.eq_of_bit (by rw [hmap, if_neg (by rw [hclear]; exact Bool.false_ne_true)])
        (fun k hk => ?_) (fun a ha => bitmapFreeSlot_outside h ha)
      rw [hbit k hk]
      by_cases hks : k = slot
      · rw [hks, hclear, Bool.false_and]
      · rw [decide_eq_false hks, Bool.not_false, Bool.and_true]

/-! ## Runs of allocations -/

/-- What `m` calls of `bitmap_allocate_slot` return, in order, and the bitmap after them. -/
def allocateRun : Nat → BitmapState 32 → List Int × BitmapState 32
  | 0, s     => ([], s)
  | m + 1, s =>
    let r := bitmapAllocateSlot s
    (r.1 :: (allocateRun m r.2).1, (allocateRun m r.2).2)

/-- The first `j` slots are in use, and the count, where it does not wrap, is that of the others. -/
structure FilledTo (j : Nat) (s : BitmapState 32) : Prop where
  used : s.used = Finset.range (min j s.capacity)
  count_lt : s.map.freeSlotsCount < 2 ^ 32
  counted : s.capacity < 2 ^ 32 → s.Counted

theorem FilledTo.bit_iff {j : Nat} {s : BitmapState 32} (h : FilledTo j s) {k : Nat} (hk : k < s.capacity) :
    s.bit k = true ↔ k < j := by
  have hmem : k ∈ s.used ↔ k ∈ Finset.range (min j s.capacity) := by rw [h.used]
  rw [BitmapState.mem_used, and_iff_right hk, Finset.mem_range, lt_min_iff, and_iff_left hk] at hmem
  exact hmem

theorem FilledTo.alloc {j : Nat} {s : BitmapState 32} (h : FilledTo j s) :
    FirstFit.alloc (List.range s.capacity) s.used = if j < s.capacity then some j else none := by
  split
  case isTrue hj =>
    rw [FirstFit.alloc_range_eq_some, h.used, Nat.min_eq_left (Nat.le_of_lt hj)]
    exact ⟨hj, by simp, fun i hi => by simpa using hi⟩
  case isFalse hj =>
    rw [FirstFit.alloc_eq_none, h.used, Nat.min_eq_right (Nat.le_of_not_lt hj)]
    exact fun k hk => by simpa using hk

theorem FilledTo.step {j : Nat} {s : BitmapState 32} (h : FilledTo j s) :
    FilledTo (j + 1) (bitmapAllocateSlot s).2 := by
  have hspec := bitmapAllocateSlot_spec s
  rw [h.alloc] at hspec
  refine ⟨?_, ?_, fun hcap => ?_⟩
  · rw [capacity_bitmapAllocateSlot]
    split at hspec
    case h_1 hnone =>
      rw [hspec, h.used]
      split at hnone
      · cases hnone
      · rw [Nat.min_eq_right (by omega), Nat.min_eq_right (by omega)]
    case h_2 k hsome =>
      split at hsome
      case isFalse => cases hsome
      case isTrue hj =>
        cases hsome
        rw [hspec.2.1, h.used, Nat.min_eq_left (Nat.le_of_lt hj), Nat.min_eq_left hj, Finset.range_add_one]
  · split at hspec
    · rw [hspec]
      exact h.count_lt
    · rw [hspec.2.2]
      exact Nat.mod_lt _ (by decide)
  · rw [capacity_bitmapAllocateSlot] at hcap
    exact bitmapAllocateSlot_counted hcap (h.counted hcap)

theorem FilledTo.run : ∀ (m : Nat) {j : Nat} {s : BitmapState 32}, FilledTo j s →
    FilledTo (j + m) (allocateRun m s).2 ∧ (allocateRun m s).2.map.slotsSize = s.map.slotsSize
  | 0, _, _, h => ⟨h, rfl⟩
  | m + 1, j, s, h => by
    obtain ⟨hfilled, hsize⟩ := FilledTo.run m h.step
    rw [Nat.add_right_comm] at hfilled
    exact ⟨hfilled, hsize.trans (bitmapAllocateSlot_slotsSize s)⟩

theorem bitmapInit_filledTo {ndebug : Bool} {s₀ s : BitmapState 32} {slots n : Nat} (hslots : slots ≠ 0) (hn : 0 < n)
    (hs : bitmapInit ndebug s₀ slots n = .ok s) : FilledTo 0 s ∧ s.map.slotsSize = n := by
  obtain ⟨s', hs', hmap, hused, -⟩ := bitmapInit_ok ndebug s₀ hslots (Nat.pos_iff_ne_zero.1 hn)
  obtain rfl : s = s' := Except.ok.inj (hs.symm.trans hs')
  refine ⟨⟨by rw [hused, Nat.zero_min, Finset.range_zero], by rw [hmap]; exact wrap32_lt _, fun hcap => ?_⟩,
    by rw [hmap]⟩
  rw [BitmapState.counted_iff, hused, Finset.card_empty, Nat.add_zero]
  rw [BitmapState.capacity, hmap] at hcap ⊢
  exact wrap32_of_lt hcap

/-! ## A slot allocated and released at once -/

/-- If a slot is free, allocating one and releasing the slot returned gives back the words and the count. -/
def Restores (s : BitmapState 32) : Prop :=
  (∃ k < s.map.slotsSize * 32, s.bit k = false) →
    ∃ s', bitmapFreeSlot false (bitmapAllocateSlot s).2 (toUint32 (bitmapAllocateSlot s).1) = .ok s' ∧
      (∀ i < s.map.slotsSize, s'.word i = s.word i) ∧ s'.map.freeSlotsCount = s.map.freeSlotsCount

theorem used_of_word_eq {s t : BitmapState 32} (hcap : t.capacity = s.capacity)
    (h : ∀ i < s.map.slotsSize, t.word i = s.word i) : t.used = s.used := by
  ext k
  rw [BitmapState.mem_used, BitmapState.mem_used, hcap]
  refine and_congr_right fun hk => ?_
  rw [BitmapState.capacity] at hk
  rw [BitmapState.bit, BitmapState.bit, h (k / 32) (by omega)]

theorem word_eq_of_used {s t : BitmapState 32} (hcap : t.capacity = s.capacity) (h : t.used = s.used) {i : Nat}
    (hi : i < s.map.slotsSize) : t.word i = s.word i := by
  refine BitmapState.word_eq_of_bit fun o ho => ?_
  have hk : 32 * i + o < s.capacity := by
    rw [BitmapState.capacity]
    omega
  have hmem : 32 * i + o ∈ t.used ↔ 32 * i + o ∈ s.used := by rw [h]
  rwa [BitmapState.mem_used, BitmapState.mem_used, hcap, and_iff_right hk, and_iff_right hk, ← Bool.eq_iff_iff] at hmem

theorem FilledTo.restores {j : Nat} {s : BitmapState 32} (h : FilledTo j s) (hj : j < s.map.slotsSize)
    (hsize : s.map.slotsSize < 2 ^ 32) : Restores s := by
  intro _
  have hcap : j < s.capacity := by
    rw [BitmapState.capacity]
    omega
  have hspec := bitmapAllocateSlot_spec s
  rw [h.alloc, if_pos hcap] at hspec
  obtain ⟨hret, hused, hmap⟩ := hspec
  have hslot : j < (bitmapAllocateSlot s).2.map.slotsSize := by rwa [bitmapAllocateSlot_slotsSize]
  obtain ⟨s', hs', hused', hmap'⟩ := bitmapFreeSlot_ok false _ hslot (Nat.lt_trans hj hsize)
  have hnot : j ∉ s.used := by
    rw [h.used, Finset.mem_range, lt_min_iff]
    exact fun hlt => Nat.lt_irrefl j hlt.1
  have hsame : s'.used = s.used := by rw [hused', hused, Finset.erase_insert hnot]
  have hcap' : s'.capacity = s.capacity := by
    rw [BitmapState.capacity, hmap']
    exact capacity_bitmapAllocateSlot s
  have hin : j ∈ (bitmapAllocateSlot s).2.used := by
    rw [hused]
    exact Finset.mem_insert_self _ _
  refine ⟨s', ?_, fun i hi => word_eq_of_used hcap' hsame hi, ?_⟩
  · rw [hret, toUint32_toInt32 (Nat.lt_trans hj hsize), hs']
  · rw [hmap', if_pos hin, hmap]
    exact wrap32_sub32_add h.count_lt

/-- Past the number of words the release stops the machine, or, once the index no longer fits an `int`, clears another
slot. -/
theorem FilledTo.not_restores {j : Nat} {s : BitmapState 32} (h : FilledTo j s) (hj : s.map.slotsSize ≤ j)
    (hcap : j < s.capacity) : ¬ Restores s := by
  intro hrestores
  have hclear : s.bit j = false := by
    rw [← Bool.not_eq_true, h.bit_iff hcap]
    exact Nat.lt_irrefl j
  obtain ⟨s', hs', hwords, -⟩ := hrestores ⟨j, hcap, hclear⟩
  have hspec := bitmapAllocateSlot_spec s
  rw [h.alloc, if_pos hcap] at hspec
  rw [hspec.1, toUint32_toInt32_mod] at hs'
  have hmod := Nat.mod_lt j (show 2 ^ 32 > 0 by decide)
  have hslot := bitmapFreeSlot_admitted hs'
  rw [wrap32_of_lt hmod] at hslot
  obtain ⟨t, ht, hused, hmap⟩ := bitmapFreeSlot_ok false _ hslot hmod
  obtain rfl : s' = t := Except.ok.inj (hs'.symm.trans ht)
  rw [bitmapAllocateSlot_slotsSize] at hslot
  have hcap' : s'.capacity = s.capacity := by
    rw [BitmapState.capacity, hmap]
    exact capacity_bitmapAllocateSlot s
  have hlow : j % 2 ^ 32 ∈ s.used := by
    rw [h.used, Finset.mem_range, lt_min_iff]
    omega
  rw [← used_of_word_eq hcap' hwords, hused] at hlow
  exact Finset.notMem_erase _ _ hlow

theorem FilledTo.restores_iff {j : Nat} {s : BitmapState 32} (h : FilledTo j s) (hsize : s.map.slotsSize < 2 ^ 32) :
    Restores s ↔ j < s.map.slotsSize ∨ s.map.slotsSize * 32 ≤ j := by
  constructor
  · intro hrestores
    by_contra hout
    push Not at hout
    exact h.not_restores hout.1 hout.2 hrestores
  · rintro (hj | hj)
    · exact h.restores hj hsize
    · rintro ⟨k, hk, hclear⟩
      rw [(h.bit_iff hk).2 (Nat.lt_of_lt_of_le hk hj)] at hclear
      cases hclear

/-- **A slot is released as it should be exactly when it is below the number of words**: of those a run of allocations
from a fresh bitmap returned, and of the next one. -/
theorem bitmapFreeSlot_returned_iff (ndebug : Bool) (s₀ s : BitmapState 32) {slots n : Nat} (hslots : slots ≠ 0)
    (hn : 0 < n) (hsize : n < 2 ^ 32) (hs : bitmapInit ndebug s₀ slots n = .ok s) (m : Nat) :
    (∀ r ∈ (allocateRun m s).1, r ≠ -1 → (FreesOnly (allocateRun m s).2 (toUint32 r) ↔ toUint32 r < n)) ∧
    (∀ slot, n * 32 ≤ wrap32 slot →
      bitmapFreeSlot false (allocateRun m s).2 slot = .error (.assertion "map->slots_size > slot")) ∧
    (Restores (allocateRun m s).2 ↔ m < n ∨ n * 32 ≤ m) := by
  obtain ⟨hfresh, hfreshSize⟩ := bitmapInit_filledTo hslots hn hs
  obtain ⟨hfilled, hrunSize⟩ := hfresh.run m
  rw [Nat.zero_add] at hfilled
  rw [hfreshSize] at hrunSize
  refine ⟨fun r _ _ => ?_, fun slot hslot => bitmapFreeSlot_assertion _ (by omega), ?_⟩
  · rw [freesOnly_iff hfilled.counted (toUint32_lt r), hrunSize]
  · rw [hfilled.restores_iff (by rwa [hrunSize]), hrunSize]

theorem bitmapFreeSlot_returned_iff_freshWord :
    (∀ r ∈ (allocateRun 2 freshWord).1, r ≠ -1 →
      (FreesOnly (allocateRun 2 freshWord).2 (toUint32 r) ↔ toUint32 r < 1)) ∧
    (∀ slot, 1 * 32 ≤ wrap32 slot →
      bitmapFreeSlot false (allocateRun 2 freshWord).2 slot = .error (.assertion "map->slots_size > slot")) ∧
    (Restores (allocateRun 2 freshWord).2 ↔ 2 < 1 ∨ 1 * 32 ≤ 2) :=
  bitmapFreeSlot_returned_iff false ⟨⟨0, 0, 0, 0⟩, fun _ => 0⟩ freshWord (show 0x80001000 ≠ 0 by decide)
    (show 0 < 1 by decide) (by decide) rfl 2

/-- On one word the second slot allocated cannot be released. -/
theorem freshWord_second_slot_stuck :
    bitmapInit false ⟨⟨0, 0, 0, 0⟩, fun _ => 0⟩ 0x80001000 1 = .ok freshWord ∧
      (allocateRun 2 freshWord).1 = [0, 1] ∧
      bitmapFreeSlot false (allocateRun 2 freshWord).2 1 = .error (.assertion "map->slots_size > slot") ∧
      ¬ FreesOnly (allocateRun 2 freshWord).2 1 := by
  have hstuck : bitmapFreeSlot false (allocateRun 2 freshWord).2 1 = .error (.assertion "map->slots_size > slot") :=
    bitmapFreeSlot_assertion _ (by decide)
  refine ⟨rfl, by decide, hstuck, ?_⟩
  rintro ⟨s', h, -⟩
  rw [hstuck] at h
  cases h

end RiscvOs

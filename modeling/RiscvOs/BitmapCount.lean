import RiscvOs.BitmapSlots
import RiscvOs.Runs
/-!
# The cached count of free slots

`free_slots_count` is documented as the "Total zeroed bits".  Allocation and release keep it so; marking sets bits and
leaves it alone.
-/
namespace RiscvOs

/-- The clear bits among the words of the bitmap. -/
def BitmapState.clearSlots {xlen : Nat} (s : BitmapState xlen) : Finset Nat :=
  (Finset.range s.capacity).filter (fun k => s.bit k = false)

theorem BitmapState.clearSlots_eq {xlen : Nat} (s : BitmapState xlen) :
    s.clearSlots = Finset.range s.capacity \ s.used := by
  ext k
  simp only [BitmapState.clearSlots, Finset.mem_filter, Finset.mem_sdiff, BitmapState.mem_used, Finset.mem_range]
  cases s.bit k <;> simp

inductive BitmapOp where
  | allocateSlot
  | freeSlot (slot : Nat)
  | markAsUsed (firstSlot slotsToMark : Nat)
deriving DecidableEq, Repr

def BitmapOp.step {xlen : Nat} (ndebug : Bool) (s : BitmapState xlen) : BitmapOp → Except Stop (BitmapState xlen)
  | .allocateSlot   => .ok (bitmapAllocateSlot s).2
  | .freeSlot k     => bitmapFreeSlot ndebug s k
  | .markAsUsed f c => .ok (bitmapMarkAsUsed s f c)

/-- A slot the assertion of `bitmap_free_slot` admits on `n` words; a span whose end does not wrap. -/
def BitmapOp.Admitted (n : Nat) : BitmapOp → Prop
  | .allocateSlot   => True
  | .freeSlot k     => k < n
  | .markAsUsed f c => f + c < 2 ^ 32

/-- The step is not a marking of a slot that is free. -/
def BitmapOp.SetsNothingByMarking {xlen : Nat} (s : BitmapState xlen) : BitmapOp → Prop
  | .markAsUsed f c => ∀ k, f ≤ k → k < f + c → k < s.capacity → s.bit k = true
  | _               => True

def BitmapState.Counted {xlen : Nat} (s : BitmapState xlen) : Prop := s.map.freeSlotsCount = s.clearSlots.card

theorem BitmapState.counted_iff {xlen : Nat} (s : BitmapState xlen) :
    s.Counted ↔ s.map.freeSlotsCount + s.used.card = s.capacity := by
  have hsub : s.used ⊆ Finset.range s.capacity := Finset.filter_subset _ _
  have hcard := Finset.card_sdiff_add_card_eq_card hsub
  rw [← BitmapState.clearSlots_eq, Finset.card_range] at hcard
  unfold BitmapState.Counted
  omega

section Steps

variable {s : BitmapState 32} {n : Nat}

theorem BitmapOp.step_ok (ndebug : Bool) {op : BitmapOp} (hn : s.map.slotsSize = n) (hcap : n * 32 < 2 ^ 32)
    (hop : op.Admitted n) : ∃ s', op.step ndebug s = .ok s' ∧ s'.map.slotsSize = n := by
  cases op with
  | allocateSlot => exact ⟨_, rfl, (bitmapAllocateSlot_slotsSize s).trans hn⟩
  | freeSlot k =>
    have hk : k < n := hop
    obtain ⟨s', hs', -, hmap⟩ := bitmapFreeSlot_ok ndebug s (hn.symm ▸ hk) (by omega)
    exact ⟨s', hs', by rw [hmap]; exact hn⟩
  | markAsUsed f c => exact ⟨_, rfl, by rw [bitmapMarkAsUsed_map]; exact hn⟩

theorem bitmapAllocateSlot_counted (hcap : s.capacity < 2 ^ 32) (h : s.Counted) : (bitmapAllocateSlot s).2.Counted := by
  rw [BitmapState.counted_iff] at h ⊢
  have hspec := bitmapAllocateSlot_spec s
  cases ha : FirstFit.alloc (List.range s.capacity) s.used with
  | none => rw [ha] at hspec; rw [hspec]; exact h
  | some k =>
    rw [ha] at hspec
    obtain ⟨-, hused, hmap⟩ := hspec
    obtain ⟨hk, hnot, -⟩ := FirstFit.alloc_range_eq_some.1 ha
    have hlt : s.used.card < s.capacity := by
      have hss : s.used ⊂ Finset.range s.capacity :=
        Finset.ssubset_iff_of_subset (Finset.filter_subset _ _) |>.2 ⟨k, by simpa using hk, hnot⟩
      simpa using Finset.card_lt_card hss
    rw [capacity_bitmapAllocateSlot, hused, hmap, Finset.card_insert_of_notMem hnot]
    simp only
    rw [sub32_of_le (by omega) (by omega)]
    omega

theorem bitmapFreeSlot_counted {ndebug : Bool} {k : Nat} {s' : BitmapState 32} (hcap : s.capacity < 2 ^ 32)
    (hk : k < s.map.slotsSize) (hs' : bitmapFreeSlot ndebug s k = .ok s') (h : s.Counted) : s'.Counted := by
  have hlt : k < 2 ^ 32 := by
    rw [BitmapState.capacity] at hcap
    omega
  obtain ⟨t, ht, hused, hmap⟩ := bitmapFreeSlot_ok ndebug s hk hlt
  obtain rfl : s' = t := by rw [hs'] at ht; exact Except.ok.inj ht
  have hc : s'.capacity = s.capacity := by simp only [BitmapState.capacity, hmap]
  rw [BitmapState.counted_iff] at h ⊢
  rw [hused, hc, hmap]
  simp only
  by_cases hm : k ∈ s.used
  · have hpos : 0 < s.used.card := Finset.card_pos.2 ⟨k, hm⟩
    rw [if_pos hm, Finset.card_erase_of_mem hm, wrap32_of_lt (by omega)]
    omega
  · rw [if_neg hm, Finset.erase_eq_of_notMem hm]
    exact h

/-- Marking keeps the count right exactly when it sets no bit. -/
theorem bitmapMarkAsUsed_counted {f c : Nat} (hfc : f + c < 2 ^ 32) (h : s.Counted) :
    (bitmapMarkAsUsed s f c).Counted ↔ ∀ k, f ≤ k → k < f + c → k < s.capacity → s.bit k = true := by
  have hc : (bitmapMarkAsUsed s f c).capacity = s.capacity := by simp only [BitmapState.capacity, bitmapMarkAsUsed_map]
  have hused := used_bitmapMarkAsUsed s f c
  rw [wrap32_of_lt hfc] at hused
  rw [BitmapState.counted_iff] at h ⊢
  rw [hc, bitmapMarkAsUsed_map]
  have hsub : s.used ⊆ (bitmapMarkAsUsed s f c).used := by rw [hused]; exact Finset.subset_union_left
  constructor
  · intro h' k h1 h2 h3
    have heq : s.used = (bitmapMarkAsUsed s f c).used := Finset.eq_of_subset_of_card_le hsub (by omega)
    have hk : k ∈ s.used := by
      rw [heq, hused]
      exact Finset.mem_union_right _ (by simp [h1, h2, h3])
    exact (BitmapState.mem_used.1 hk).2
  · intro hall
    have heq : (bitmapMarkAsUsed s f c).used = s.used := by
      rw [hused, Finset.union_eq_left]
      intro k hk
      simp only [Finset.mem_filter, Finset.mem_range] at hk
      exact BitmapState.mem_used.2 ⟨hk.1, hall k hk.2.1 hk.2.2 hk.1⟩
    rw [heq]
    exact h

theorem BitmapOp.step_counted {ndebug : Bool} {op : BitmapOp} {s' : BitmapState 32} (hn : s.map.slotsSize = n)
    (hcap : n * 32 < 2 ^ 32) (hop : op.Admitted n) (h : s.Counted) (hs' : op.step ndebug s = .ok s') :
    s'.Counted ↔ op.SetsNothingByMarking s := by
  have hcap' : s.capacity < 2 ^ 32 := by simpa only [BitmapState.capacity, hn] using hcap
  cases op with
  | allocateSlot =>
    cases hs'
    exact iff_of_true (bitmapAllocateSlot_counted hcap' h) trivial
  | freeSlot k =>
    exact iff_of_true (bitmapFreeSlot_counted hcap' (hn.symm ▸ hop : k < s.map.slotsSize) hs' h) trivial
  | markAsUsed f c =>
    cases hs'
    exact bitmapMarkAsUsed_counted hop h

end Steps

/-- **`free_slots_count` is the number of clear bits throughout a run exactly when no step marks a free slot.** -/
theorem freeSlotsCount_always_iff (ndebug : Bool) (s₀ s : BitmapState 32) {slots n : Nat} (hslots : slots ≠ 0)
    (hn : 0 < n) (hcap : n * 32 < 2 ^ 31) (hs : bitmapInit ndebug s₀ slots n = .ok s) (ops : List BitmapOp)
    (hops : ∀ op ∈ ops, op.Admitted n) :
    Runs.Always (BitmapOp.step ndebug) (fun t => t.map.freeSlotsCount = t.clearSlots.card) ops s ↔
      Runs.EveryStep (BitmapOp.step ndebug) BitmapOp.SetsNothingByMarking ops s := by
  obtain ⟨s', hs', hmap, hused, -⟩ := bitmapInit_ok ndebug s₀ hslots (Nat.pos_iff_ne_zero.1 hn)
  obtain rfl : s = s' := by rw [hs] at hs'; exact Except.ok.inj hs'
  have hsize : s.map.slotsSize = n := by rw [hmap]
  have hcount : s.Counted := by
    rw [BitmapState.counted_iff, hused, hmap, BitmapState.capacity, hmap]
    simp only [Finset.card_empty, Nat.add_zero]
    exact wrap32_of_lt (by omega)
  exact Runs.always_iff_everyStep (K := fun t => t.map.slotsSize = n) (P := BitmapState.Counted) ops s
    (fun t op hop ht => BitmapOp.step_ok ndebug ht (by omega) (hops op hop))
    (fun t op hop t' ht hc hs' => BitmapOp.step_counted ht (by omega) (hops op hop) hc hs') hsize hcount

def freshWord : BitmapState 32 := ⟨⟨1, 32, 0, 0x80001000⟩, wordAlignedMemset (fun _ => 0) 0x80001000 0 1⟩

theorem freeSlotsCount_always_iff_freshWord :
    Runs.Always (BitmapOp.step false) (fun t => t.map.freeSlotsCount = t.clearSlots.card)
        [.allocateSlot, .freeSlot 0, .markAsUsed 40 8] freshWord ↔
      Runs.EveryStep (BitmapOp.step false) BitmapOp.SetsNothingByMarking
        [.allocateSlot, .freeSlot 0, .markAsUsed 40 8] freshWord :=
  freeSlotsCount_always_iff false ⟨⟨0, 0, 0, 0⟩, fun _ => 0⟩ freshWord (show 0x80001000 ≠ 0 by decide)
    (show 0 < 1 by decide) (by decide) rfl _ (by simp [BitmapOp.Admitted])

/-- Marking slot 0 of a fresh word leaves a count of 32 beside 31 clear bits. -/
theorem freshWord_miscounted_after_marking :
    bitmapInit false ⟨⟨0, 0, 0, 0⟩, fun _ => 0⟩ 0x80001000 1 = .ok freshWord ∧
      ¬ Runs.Always (BitmapOp.step false) (fun t => t.map.freeSlotsCount = t.clearSlots.card)
        [.markAsUsed 0 1] freshWord := by
  refine ⟨rfl, fun hall => ?_⟩
  have hmarked := hall [.markAsUsed 0 1] (bitmapMarkAsUsed freshWord 0 1) (List.prefix_refl _) rfl
  have hfresh : freshWord.Counted := by
    unfold BitmapState.Counted
    decide
  have h0 := (bitmapMarkAsUsed_counted (by decide) hfresh).1 hmarked 0 (by decide) (by decide) (by decide)
  exact absurd h0 (by decide)

end RiscvOs

import RiscvOs.Placement
/-!
# When `init_phys_allocator` panics

The law in exact integers, and the three places the code leaves it: the unborrowed RAM is kept in a `signed long`, the
address 0 also means that nothing was found, and room is measured past a kernel that lies in another region.
-/
namespace RiscvOs

/-- The lengths of the kernel-free gaps of a region. -/
def kernelFreeGaps (k : KernelImage) (r : RamDescriptor) : List Nat :=
  if r.physicaddr ≤ k.kernelPhysicalStart ∧ k.stop ≤ r.stop then
    [k.kernelPhysicalStart - r.physicaddr, r.stop - k.stop]
  else [r.spaceSize]

def HasGap (T : RamTable) (k : KernelImage) : Prop :=
  ∃ r ∈ T.regions, ∃ gap ∈ kernelFreeGaps k r, neededBytes T ≤ gap

/-- The law: too little RAM, or no gap for the bitmap. -/
def MustPanic (T : RamTable) (k : KernelImage) : Prop := freeRam T k < 4096 ∨ ¬ HasGap T k

/-- The region has room at its start, or its end is far enough above the kernel. -/
def Accepts (T : RamTable) (k : KernelImage) (r : RamDescriptor) : Prop :=
  neededBytes T ≤ startRoom k r ∨ neededBytes T ≤ r.stop - k.stop

/-- A region at address 0 with room at its start comes after another that the search takes. -/
def NullAvoided (T : RamTable) (k : KernelImage) : Prop :=
  ∀ pre r post, T.regions = pre ++ r :: post → r.physicaddr = 0 → neededBytes T ≤ startRoom k r →
    ∃ x ∈ pre, Accepts T k x

/-! ## The gaps and the search -/

section Search

variable {T : RamTable} {k : KernelImage} {r : RamDescriptor}

theorem startRoom_eq (hk : k.InRam T) (hr : r ∈ T.regions) :
    startRoom k r =
      if r.physicaddr ≤ k.kernelPhysicalStart ∧ k.stop ≤ r.stop then k.kernelPhysicalStart - r.physicaddr
      else r.spaceSize := by
  have hne := hk.nonempty
  unfold startRoom
  by_cases hin : r.physicaddr ≤ k.kernelPhysicalStart ∧ k.kernelPhysicalStart < r.stop
  · rw [if_pos hin, if_pos ⟨hin.1, hk.stop_le hr hin.1 hin.2⟩]
  · have hout : ¬ (r.physicaddr ≤ k.kernelPhysicalStart ∧ k.stop ≤ r.stop) := by
      rintro ⟨h1, h2⟩
      simp only [KernelImage.stop] at h2
      exact hin ⟨h1, by omega⟩
    rw [if_neg hin, if_neg hout]

theorem startRoom_mem_kernelFreeGaps (hk : k.InRam T) (hr : r ∈ T.regions) : startRoom k r ∈ kernelFreeGaps k r := by
  rw [startRoom_eq hk hr, kernelFreeGaps]
  split <;> exact List.mem_cons_self

theorem HasGap.accepts (hk : k.InRam T) (h : HasGap T k) : ∃ r ∈ T.regions, Accepts T k r := by
  obtain ⟨r, hr, gap, hgap, hle⟩ := h
  refine ⟨r, hr, ?_⟩
  have hstart := startRoom_eq hk hr
  unfold kernelFreeGaps at hgap
  split at hgap
  case isTrue hin =>
    rw [if_pos hin] at hstart
    rcases List.mem_cons.1 hgap with rfl | hgap
    · exact Or.inl (hstart ▸ hle)
    · rw [List.mem_singleton.1 hgap] at hle
      exact Or.inr hle
  case isFalse hout =>
    rw [if_neg hout] at hstart
    rw [List.mem_singleton.1 hgap] at hle
    exact Or.inl (hstart ▸ hle)

theorem startFits_iff_neededBytes (hT : T.BelowTop) (hr : r ∈ T.regions) :
    startFits k (neededBytes T) r = true ↔ neededBytes T ≤ startRoom k r := startFits_iff (hT r hr)

theorem tailFits_iff_neededBytes (hk : k.InRam T) (hT : T.BelowTop) (hr : r ∈ T.regions) :
    tailFits k (neededBytes T) r = true ↔ neededBytes T ≤ r.stop - k.stop := by
  have hpos := neededBytes_pos hk
  rw [tailFits_iff (hT r hr), ← k.stop_eq (hk.stop_lt hT)]
  omega

theorem accepts_iff (hk : k.InRam T) (hT : T.BelowTop) (hr : r ∈ T.regions) :
    Accepts T k r ↔ startFits k (neededBytes T) r = true ∨ tailFits k (neededBytes T) r = true := by
  rw [startFits_iff_neededBytes hT hr, tailFits_iff_neededBytes hk hT hr, Accepts]

theorem searchStopsAt_iff (hk : k.InRam T) (hT : T.BelowTop) :
    SearchStopsAt k (neededBytes T) T.regions r ↔
      ∃ pre post, T.regions = pre ++ r :: post ∧ (∀ x ∈ pre, ¬ Accepts T k x) ∧ Accepts T k r := by
  have hsame : ∀ x ∈ T.regions, Takes T k x ↔ Accepts T k x := fun x hx => by
    rw [takes_iff hk hx, accepts_iff hk hT hx]
  rw [searchStopsAt_iff_takes hk]
  refine exists₂_congr fun pre post => and_congr_right fun ht => ?_
  have hmem : ∀ x ∈ pre ++ r :: post, x ∈ T.regions := fun x hx => by rwa [ht]
  exact and_congr (forall₂_congr fun x hx => not_congr (hsame x (hmem x (by simp [hx]))))
    (hsame r (hmem r (by simp)))

/-- **The search comes back empty** when no region takes the bitmap, and when the first that does is at address 0. -/
theorem searchSlots_eq_zero_iff (hk : k.InRam T) (hT : T.BelowTop) :
    searchSlots k (neededBytes T) T.regions = 0 ↔ (∀ r ∈ T.regions, ¬ Accepts T k r) ∨ ¬ NullAvoided T k := by
  rcases searchSlots_cases k (neededBytes T) T.regions with ⟨hz, hall⟩ | ⟨r, hstop⟩
  · refine iff_of_true hz (Or.inl fun r hr => ?_)
    rw [accepts_iff hk hT hr, (hall r hr).1, (hall r hr).2]
    simp
  · have hr := hstop.mem
    have hend : k.kernelPhysicalEnd ≠ 0 := by
      rw [← k.stop_eq (hk.stop_lt hT)]
      exact Nat.ne_of_gt (Nat.lt_of_lt_of_le hk.nonempty (Nat.le_add_left _ _))
    rw [searchSlots_of_stopsAt hstop]
    constructor
    · intro h0
      refine Or.inr fun hnull => ?_
      obtain ⟨pre, post, ht, hpre, -⟩ := (searchStopsAt_iff hk hT).1 hstop
      by_cases hs : startFits k (neededBytes T) r = true
      · rw [if_pos hs] at h0
        obtain ⟨x, hx, hacc⟩ := hnull pre r post ht h0 ((startFits_iff_neededBytes hT hr).1 hs)
        exact hpre x hx hacc
      · rw [if_neg hs] at h0
        exact hend h0
    · rintro (hall | hnull)
      · obtain ⟨-, -, -, -, hacc⟩ := (searchStopsAt_iff hk hT).1 hstop
        exact absurd hacc (hall r hr)
      · simp only [NullAvoided, not_forall, not_exists, not_and] at hnull
        obtain ⟨pre, x, post, ht, hx0, hroom, hpre⟩ := hnull
        have hstop' : SearchStopsAt k (neededBytes T) T.regions x :=
          (searchStopsAt_iff hk hT).2 ⟨pre, post, ht, hpre, Or.inl hroom⟩
        have hxs := (startFits_iff_neededBytes hT hstop'.mem).2 hroom
        rw [← searchSlots_of_stopsAt hstop, searchSlots_of_stopsAt hstop', if_pos hxs, hx0]

theorem nullAvoided_of_not_hasGap (hk : k.InRam T) (h : ¬ HasGap T k) : NullAvoided T k := by
  intro pre r post ht _ hroom
  have hr : r ∈ T.regions := by rw [ht]; exact List.mem_append_right _ List.mem_cons_self
  exact absurd ⟨r, hr, _, startRoom_mem_kernelFreeGaps hk hr, hroom⟩ h

end Search

/-- **The panics follow the law** exactly when RAM is short, or, the gap being there, the free RAM is below 2 GiB and
address 0 is not the place found, or, without a gap, nothing else stands in for one. -/
theorem initPhysAllocator_panics_iff (ndebug : Bool) (T : RamTable) (hT : T.BelowTop) (k : KernelImage)
    (hk : k.InRam T) (mem : Mem 32) :
    ((∃ m, initPhysAllocator ndebug T.regions k mem = .error (.panic m)) ↔ MustPanic T k) ↔
      freeRam T k < 4096 ∨
        (HasGap T k → freeRam T k < 2 ^ 31 ∧ NullAvoided T k) ∧
        (¬ HasGap T k → 2 ^ 31 ≤ freeRam T k ∨ ∀ r ∈ T.regions, r.stop - k.stop < neededBytes T) := by
  have hpanic : (∃ m, initPhysAllocator ndebug T.regions k mem = .error (.panic m)) ↔
      (freeRam T k < 4096 ∨ 2 ^ 31 ≤ freeRam T k) ∨
        (∀ r ∈ T.regions, ¬ Accepts T k r) ∨ ¬ NullAvoided T k := by
    simp only [initPhysAllocator_panic_iff]
    rw [placeBitmap_panic_iff (hk.assertsPass hT ndebug), unborrowed_lt_iff hk, wrap32_bitmapBytes,
      bitmapBytes_eq hT.totalSize_lt, searchSlots_eq_zero_iff hk hT]
  rw [hpanic, MustPanic]
  by_cases hfree : freeRam T k < 4096
  · exact iff_of_true (iff_of_true (Or.inl (Or.inl hfree)) (Or.inl hfree)) (Or.inl hfree)
  simp only [hfree, false_or]
  by_cases hgap : HasGap T k
  · have hacc : ¬ ∀ r ∈ T.regions, ¬ Accepts T k r := fun hall => by
      obtain ⟨r, hr, h⟩ := hgap.accepts hk
      exact hall r hr h
    simp only [hgap, hacc, not_true, false_or, iff_false, not_or, not_not, Int.not_le, true_implies, false_implies,
      and_true]
  · have hnull := nullAvoided_of_not_hasGap hk hgap
    have hacc : (∀ r ∈ T.regions, ¬ Accepts T k r) ↔ ∀ r ∈ T.regions, r.stop - k.stop < neededBytes T := by
      refine forall₂_congr fun r hr => ?_
      have hroom : ¬ neededBytes T ≤ startRoom k r := fun hroom =>
        hgap ⟨r, hr, _, startRoom_mem_kernelFreeGaps hk hr, hroom⟩
      rw [Accepts, not_or, and_iff_right hroom, Nat.not_le]
    simp only [hgap, hnull, hacc, not_true, not_false_iff, or_false, iff_true, false_implies, true_implies, true_and]

def largeRam : RamTable where
  regions := [⟨0x40000000, 0xa0000000⟩]
  regular := by decide
  disjoint := by decide

def largeKernel : KernelImage := ⟨0x40000000, 0x40001000, by decide, by decide⟩

theorem initPhysAllocator_panics_iff_largeRam :
    ((∃ m, initPhysAllocator false largeRam.regions largeKernel (fun _ => 0) = .error (.panic m)) ↔
      MustPanic largeRam largeKernel) ↔
      freeRam largeRam largeKernel < 4096 ∨
        (HasGap largeRam largeKernel → freeRam largeRam largeKernel < 2 ^ 31 ∧ NullAvoided largeRam largeKernel) ∧
        (¬ HasGap largeRam largeKernel → 2 ^ 31 ≤ freeRam largeRam largeKernel ∨
          ∀ r ∈ largeRam.regions, r.stop - largeKernel.stop < neededBytes largeRam) :=
  initPhysAllocator_panics_iff false largeRam (by decide) largeKernel (by decide) (fun _ => 0)

def lowRam : RamTable where
  regions := [⟨0, 0x10000⟩]
  regular := by decide
  disjoint := by decide

def lowKernel : KernelImage := ⟨0x8000, 0x9000, by decide, by decide⟩

/-- The free RAM read as a negative number, and the place found read as none. -/
theorem panics_against_law :
    (largeRam.BelowTop ∧ largeKernel.InRam largeRam ∧ freeRam largeRam largeKernel = 0x9ffff000 ∧
      initPhysAllocator false largeRam.regions largeKernel (fun _ => 0) =
        .error (.panic (.notEnoughRam (-0x60001000))) ∧
      ¬ MustPanic largeRam largeKernel) ∧
    (lowRam.BelowTop ∧ lowKernel.InRam lowRam ∧
      initPhysAllocator false lowRam.regions lowKernel (fun _ => 0) = .error (.panic .noContinuousSpace) ∧
      ¬ MustPanic lowRam lowKernel) := by
  refine ⟨⟨by decide, by decide, by decide, initPhysAllocator_panic_iff.2 (by decide), ?_⟩,
    by decide, by decide, initPhysAllocator_panic_iff.2 (by decide), ?_⟩
  · rintro (hfree | hgap)
    · exact absurd hfree (by decide)
    · exact hgap ⟨⟨0x40000000, 0xa0000000⟩, by decide, 0x9ffff000, by decide, by decide⟩
  · rintro (hfree | hgap)
    · exact absurd hfree (by decide)
    · exact hgap ⟨⟨0, 0x10000⟩, by decide, 0x8000, by decide, by decide⟩

end RiscvOs

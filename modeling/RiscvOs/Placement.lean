import RiscvOs.PhysAlloc
/-!
# Where `init_phys_allocator` puts the bitmap

Two regions mislead the search: one that ends at `2 ^ 32`, whose end wraps to 0 and hides the kernel in it, and one
above the kernel, to whose end the room past the kernel is measured although the kernel is elsewhere.
-/
namespace RiscvOs

def bitmapBytes (t : List RamDescriptor) : Nat := bitmapSizeOf t * 4

theorem udivAndCeil_le {a b bound : Nat} (h : a ≤ bound * b) : udivAndCeil a b ≤ bound := by
  unfold udivAndCeil
  have h1 := Nat.div_add_mod a b
  have h2 : a / b ≤ bound := Nat.div_le_of_le_mul (by rwa [Nat.mul_comm])
  split
  · rename_i hm
    rcases Nat.lt_or_eq_of_le h2 with hlt | heq
    · omega
    · rw [heq, Nat.mul_comm] at h1
      omega
  · omega

theorem bitmapSizeOf_le (t : List RamDescriptor) : bitmapSizeOf t ≤ 2 ^ 15 := by
  apply udivAndCeil_le
  have : getTotalMem t < 2 ^ 32 := by rw [RamTable.getTotalMem_eq]; exact wrap32_lt _
  simp only [pageOffsetBits]
  omega

theorem wrap32_bitmapBytes (t : List RamDescriptor) : wrap32 (bitmapSizeOf t * 4) = bitmapBytes t :=
  wrap32_of_lt (by have := bitmapSizeOf_le t; omega)

/-! ## The loop -/

/-- The search passes every earlier entry of the table and takes one of the two places at `r`. -/
def SearchStopsAt (k : KernelImage) (bytes : Nat) (t : List RamDescriptor) (r : RamDescriptor) : Prop :=
  ∃ pre post, t = pre ++ r :: post ∧ (∀ x ∈ pre, startFits k bytes x = false ∧ tailFits k bytes x = false) ∧
    (startFits k bytes r = true ∨ tailFits k bytes r = true)

theorem SearchStopsAt.mem {k : KernelImage} {bytes : Nat} {t : List RamDescriptor} {r : RamDescriptor}
    (h : SearchStopsAt k bytes t r) : r ∈ t := by
  obtain ⟨pre, post, rfl, -⟩ := h
  simp

theorem searchSlots_of_stopsAt {k : KernelImage} {bytes : Nat} {t : List RamDescriptor} {r : RamDescriptor}
    (h : SearchStopsAt k bytes t r) :
    searchSlots k bytes t = if startFits k bytes r then r.physicaddr else k.kernelPhysicalEnd := by
  obtain ⟨pre, post, rfl, hpre, hr⟩ := h
  induction pre with
  | nil =>
    rw [List.nil_append, searchSlots]
    by_cases hs : startFits k bytes r = true
    · simp [hs]
    · simp [hs, hr.resolve_left hs]
  | cons x pre ih =>
    obtain ⟨h1, h2⟩ := hpre x (by simp)
    rw [List.cons_append, searchSlots, h1, h2]
    simpa using ih (fun y hy => hpre y (by simp [hy]))

theorem searchSlots_cases (k : KernelImage) (bytes : Nat) : ∀ t : List RamDescriptor,
    (searchSlots k bytes t = 0 ∧ ∀ r ∈ t, startFits k bytes r = false ∧ tailFits k bytes r = false) ∨
    ∃ r, SearchStopsAt k bytes t r
  | [] => Or.inl ⟨rfl, by simp⟩
  | x :: t => by
    by_cases hx : startFits k bytes x = true ∨ tailFits k bytes x = true
    · exact Or.inr ⟨x, [], t, rfl, by simp, hx⟩
    · simp only [not_or, Bool.not_eq_true] at hx
      rcases searchSlots_cases k bytes t with ⟨h0, hall⟩ | ⟨r, pre, post, rfl, hpre, hr⟩
      · exact Or.inl ⟨by simp [searchSlots, hx, h0], by simpa using ⟨hx, hall⟩⟩
      · exact Or.inr ⟨r, x :: pre, post, rfl, by simpa using ⟨hx, hpre⟩, hr⟩

/-! ## The two tests, in integers -/

/-- The room from the start of the region, up to the kernel if it starts there. -/
def startRoom (k : KernelImage) (r : RamDescriptor) : Nat :=
  if r.physicaddr ≤ k.kernelPhysicalStart ∧ k.kernelPhysicalStart < r.stop then
    k.kernelPhysicalStart - r.physicaddr
  else r.spaceSize

section Tests

variable {k : KernelImage} {bytes : Nat} {r : RamDescriptor}

theorem startRoom_le (k : KernelImage) (r : RamDescriptor) : startRoom k r ≤ r.spaceSize := by
  unfold startRoom RamDescriptor.stop
  split <;> omega

theorem startFits_iff (hlt : r.stop < 2 ^ 32) : startFits k bytes r = true ↔ bytes ≤ startRoom k r := by
  have hk := k.start_lt
  simp only [startFits, RamDescriptor.wrap32_stop hlt, decide_eq_true_eq, startRoom]
  by_cases h : r.physicaddr ≤ k.kernelPhysicalStart ∧ k.kernelPhysicalStart < r.stop
  · rw [if_pos h, if_pos h, sub32_of_le h.1 hk]
  · rw [if_neg h, if_neg h, sub32_of_le (by simp only [RamDescriptor.stop]; omega) hlt]
    simp only [RamDescriptor.stop]
    omega

theorem tailFits_iff (hlt : r.stop < 2 ^ 32) :
    tailFits k bytes r = true ↔ k.kernelPhysicalEnd < r.stop ∧ bytes ≤ r.stop - k.kernelPhysicalEnd := by
  simp only [tailFits, RamDescriptor.wrap32_stop hlt, decide_eq_true_eq]
  constructor
  · rintro ⟨h1, h2⟩
    rw [sub32_of_le (by omega) hlt] at h2
    exact ⟨h1, h2⟩
  · rintro ⟨h1, h2⟩
    rw [sub32_of_le (by omega) hlt]
    exact ⟨h1, h2⟩

theorem wrap32_top (htop : r.stop = 2 ^ 32) : wrap32 (r.physicaddr + r.spaceSize) = 0 := by
  change wrap32 r.stop = 0
  rw [htop]
  rfl

theorem startFits_top (hr : r.Regular) (htop : r.stop = 2 ^ 32) : startFits k bytes r = true ↔ bytes ≤ r.spaceSize := by
  have hsize := hr.size_lt
  have h0 := hr.nonempty
  simp only [startFits, wrap32_top htop, Nat.not_lt_zero, and_false, if_false, decide_eq_true_eq, sub32]
  simp only [RamDescriptor.stop] at htop
  omega

theorem tailFits_top (htop : r.stop = 2 ^ 32) : tailFits k bytes r = false := by
  simp [tailFits, wrap32_top htop]

end Tests

/-! ## The kernel among the regions -/

theorem RamTable.eq_of_mem_span (T : RamTable) {a b : RamDescriptor} (ha : a ∈ T.regions) (hb : b ∈ T.regions) {x : Nat}
    (hxa : x ∈ a.span) (hxb : x ∈ b.span) : a = b := by
  by_contra hne
  have hsymm : Std.Symm (fun a b : RamDescriptor => Disjoint a.span b.span) := ⟨fun _ _ h => h.symm⟩
  exact Set.disjoint_left.1 (T.disjoint.forall ha hb hne) hxa hxb

section Kernel

variable {T : RamTable} {k : KernelImage} {r : RamDescriptor}

theorem KernelImage.InRam.stop_le (hk : k.InRam T) (hr : r ∈ T.regions) (h1 : r.physicaddr ≤ k.kernelPhysicalStart)
    (h2 : k.kernelPhysicalStart < r.stop) : k.stop ≤ r.stop := by
  obtain ⟨c, hc, hc1, hc2⟩ := hk.inside
  have hne := hk.nonempty
  have hcx : k.kernelPhysicalStart ∈ c.span := ⟨hc1, by simp only [KernelImage.stop] at hc2; omega⟩
  rwa [T.eq_of_mem_span hr hc ⟨h1, h2⟩ hcx]

theorem KernelImage.InRam.disjoint (hk : k.InRam T) (hr : r ∈ T.regions)
    (h : ¬ (r.physicaddr ≤ k.kernelPhysicalStart ∧ k.kernelPhysicalStart < r.stop)) : Disjoint r.span k.span := by
  obtain ⟨c, hc, hc1, hc2⟩ := hk.inside
  rw [Set.disjoint_left]
  intro x hxr hxk
  have hxc : x ∈ c.span := ⟨Nat.le_trans hc1 hxk.1, Nat.lt_of_lt_of_le hxk.2 hc2⟩
  obtain rfl := T.eq_of_mem_span hr hc hxr hxc
  have hne := hk.nonempty
  simp only [KernelImage.stop] at hc2
  exact h ⟨hc1, by omega⟩

theorem KernelImage.InRam.stop_le_top (hk : k.InRam T) : k.stop ≤ 2 ^ 32 := by
  obtain ⟨c, hc, -, hc2⟩ := hk.inside
  exact Nat.le_trans hc2 (T.regular c hc).stop_le

end Kernel

/-! ## Safe places -/

/-- The `bytes` at `a` lie in one region and off the kernel. -/
def SafePlace (T : RamTable) (k : KernelImage) (a bytes : Nat) : Prop :=
  (∃ r ∈ T.regions, Set.Ico a (a + bytes) ⊆ r.span) ∧ Disjoint (Set.Ico a (a + bytes)) k.span

/-- The region ends at `2 ^ 32` and is long enough, but the kernel in it leaves too little before it. -/
def WrappedEnd (k : KernelImage) (bytes : Nat) (r : RamDescriptor) : Prop :=
  r.stop = 2 ^ 32 ∧ bytes ≤ r.spaceSize ∧ r.physicaddr ≤ k.kernelPhysicalStart ∧
    k.kernelPhysicalStart < r.physicaddr + bytes

/-- The region is too short and ends far enough above the kernel, while neither the region of the kernel nor one that
begins at its end has the room there. -/
def AboveKernel (T : RamTable) (k : KernelImage) (bytes : Nat) (r : RamDescriptor) : Prop :=
  r.spaceSize < bytes ∧ r.stop < 2 ^ 32 ∧ k.stop < r.stop ∧ bytes ≤ r.stop - k.stop ∧
  ∀ x ∈ T.regions, x.physicaddr ≤ k.stop → k.stop ≤ x.stop → x.stop - k.stop < bytes

section Safe

variable {T : RamTable} {k : KernelImage} {bytes : Nat} {r : RamDescriptor}

theorem span_subset_of_le (h : bytes ≤ r.spaceSize) :
    Set.Ico r.physicaddr (r.physicaddr + bytes) ⊆ r.span :=
  Set.Ico_subset_Ico_right (Nat.add_le_add_left h _)

theorem not_wrappedEnd_of_lt (hlt : r.stop < 2 ^ 32) : ¬ WrappedEnd k bytes r := by
  rintro ⟨htop, -⟩
  omega

theorem not_aboveKernel_of_le (h : bytes ≤ r.spaceSize) : ¬ AboveKernel T k bytes r := by
  rintro ⟨hshort, -⟩
  omega

theorem safePlace_of_startFits (hk : k.InRam T) (hr : r ∈ T.regions) (hlt : r.stop < 2 ^ 32)
    (h : startFits k bytes r = true) : SafePlace T k r.physicaddr bytes := by
  rw [startFits_iff hlt] at h
  have hsize : bytes ≤ r.spaceSize := Nat.le_trans h (startRoom_le k r)
  refine ⟨⟨r, hr, span_subset_of_le hsize⟩, ?_⟩
  by_cases hin : r.physicaddr ≤ k.kernelPhysicalStart ∧ k.kernelPhysicalStart < r.stop
  · rw [startRoom, if_pos hin] at h
    rw [KernelImage.span, Spans.disjoint_iff]
    omega
  · exact (hk.disjoint hr hin).mono_left (span_subset_of_le hsize)

theorem safePlace_top_iff (hk : k.InRam T) (hr : r ∈ T.regions) (htop : r.stop = 2 ^ 32)
    (h : bytes ≤ r.spaceSize) : SafePlace T k r.physicaddr bytes ↔ ¬ WrappedEnd k bytes r := by
  have hks := k.start_lt
  have hne := hk.nonempty
  constructor
  · rintro ⟨-, hd⟩ ⟨-, -, h1, h2⟩
    refine Set.disjoint_left.1 hd (show k.kernelPhysicalStart ∈ _ from ⟨h1, h2⟩) ⟨Nat.le_refl _, ?_⟩
    simp only [KernelImage.stop]
    omega
  · intro hw
    refine ⟨⟨r, hr, span_subset_of_le h⟩, ?_⟩
    by_cases h1 : r.physicaddr ≤ k.kernelPhysicalStart
    · have h2 : ¬ k.kernelPhysicalStart < r.physicaddr + bytes := fun h2 => hw ⟨htop, h, h1, h2⟩
      rw [KernelImage.span, Spans.disjoint_iff]
      omega
    · exact (hk.disjoint hr (fun hin => h1 hin.1)).mono_left (span_subset_of_le h)

theorem safePlace_stop_iff (hb : 0 < bytes) :
    SafePlace T k k.stop bytes ↔
      ∃ x ∈ T.regions, x.physicaddr ≤ k.stop ∧ k.stop ≤ x.stop ∧ bytes ≤ x.stop - k.stop := by
  constructor
  · rintro ⟨⟨x, hx, hsub⟩, -⟩
    obtain ⟨h1, h2⟩ := (Set.Ico_subset_Ico_iff (by omega)).1 hsub
    exact ⟨x, hx, h1, by omega, by omega⟩
  · rintro ⟨x, hx, h1, h2, h3⟩
    refine ⟨⟨x, hx, Set.Ico_subset_Ico h1 (by omega)⟩, ?_⟩
    rw [KernelImage.span, Spans.disjoint_iff]
    omega

theorem safePlace_of_tailFits (hk : k.InRam T) (hr : r ∈ T.regions) (hlt : r.stop < 2 ^ 32)
    (hs : startFits k bytes r = false) (ht : tailFits k bytes r = true) (h0 : k.kernelPhysicalEnd ≠ 0) :
    SafePlace T k k.kernelPhysicalEnd bytes ↔ ¬ AboveKernel T k bytes r := by
  obtain ⟨h1, h2⟩ := (tailFits_iff hlt).1 ht
  have hroom : startRoom k r < bytes := by
    rw [← Nat.not_le, ← startFits_iff hlt, hs]
    exact Bool.false_ne_true
  have hstop : k.stop = k.kernelPhysicalEnd := by
    refine k.stop_eq (Nat.lt_of_le_of_ne hk.stop_le_top fun htop => h0 ?_)
    rw [k.end_eq, htop]
    rfl
  rw [← hstop] at h1 h2 ⊢
  rw [safePlace_stop_iff (Nat.zero_lt_of_lt hroom)]
  constructor
  · rintro ⟨x, hx, hx1, hx2, hx3⟩ ⟨-, -, -, -, hall⟩
    exact absurd hx3 (Nat.not_le.2 (hall x hx hx1 hx2))
  · intro ha
    by_contra hno
    simp only [not_exists, not_and, Nat.not_le] at hno
    by_cases hin : r.physicaddr ≤ k.kernelPhysicalStart ∧ k.kernelPhysicalStart < r.stop
    · have hle : k.kernelPhysicalStart ≤ k.stop := Nat.le_add_right _ _
      exact absurd h2 (Nat.not_le.2 (hno r hr (Nat.le_trans hin.1 hle) (Nat.le_of_lt h1)))
    · rw [startRoom, if_neg hin] at hroom
      exact ha ⟨hroom, hlt, h1, h2, hno⟩

/-- **Whatever region stops the search, the place it gives is safe unless one of the two misreadings chose it.** -/
theorem safePlace_searchSlots_iff (hk : k.InRam T) (h : SearchStopsAt k bytes T.regions r)
    (h0 : searchSlots k bytes T.regions ≠ 0) :
    SafePlace T k (searchSlots k bytes T.regions) bytes ↔ ¬ WrappedEnd k bytes r ∧ ¬ AboveKernel T k bytes r := by
  have hr := h.mem
  rw [searchSlots_of_stopsAt h] at h0 ⊢
  cases hs : startFits k bytes r with
  | true =>
    rw [if_pos rfl]
    rcases Nat.lt_or_eq_of_le (T.regular r hr).stop_le with hlt | htop
    · have hsize : bytes ≤ r.spaceSize := Nat.le_trans ((startFits_iff hlt).1 hs) (startRoom_le k r)
      exact iff_of_true (safePlace_of_startFits hk hr hlt hs)
        ⟨not_wrappedEnd_of_lt hlt, not_aboveKernel_of_le hsize⟩
    · have hsize : bytes ≤ r.spaceSize := (startFits_top (T.regular r hr) htop).1 hs
      rw [safePlace_top_iff hk hr htop hsize, and_iff_left (not_aboveKernel_of_le hsize)]
  | false =>
    rw [hs, if_neg Bool.false_ne_true] at h0
    rw [if_neg Bool.false_ne_true]
    have ht : tailFits k bytes r = true := by
      obtain ⟨-, -, -, -, hor⟩ := h
      exact hor.resolve_left (by rw [hs]; exact Bool.false_ne_true)
    have hlt : r.stop < 2 ^ 32 := by
      refine Nat.lt_of_le_of_ne (T.regular r hr).stop_le fun htop => ?_
      rw [tailFits_top htop] at ht
      exact Bool.false_ne_true ht
    rw [safePlace_of_tailFits hk hr hlt hs ht h0, and_iff_right (not_wrappedEnd_of_lt hlt)]

theorem not_misread_of_null (hk : k.InRam T) (h : SearchStopsAt k bytes T.regions r)
    (h0 : searchSlots k bytes T.regions = 0) : ¬ WrappedEnd k bytes r ∧ ¬ AboveKernel T k bytes r := by
  have hreg := T.regular r h.mem
  have hsize := hreg.size_lt
  rw [searchSlots_of_stopsAt h] at h0
  constructor
  · rintro ⟨htop, hroom, -⟩
    rw [if_pos ((startFits_top hreg htop).2 hroom)] at h0
    simp only [RamDescriptor.stop] at htop
    omega
  · rintro ⟨hshort, hlt, hstop, -⟩
    have hs : ¬ startFits k bytes r = true := fun hs =>
      Nat.not_le.2 hshort (Nat.le_trans ((startFits_iff hlt).1 hs) (startRoom_le k r))
    have hne := hk.nonempty
    rw [if_neg hs, ← k.stop_eq (Nat.lt_trans hstop hlt)] at h0
    simp only [KernelImage.stop] at h0
    omega

theorem safePlace_placeBitmap_iff {ndebug : Bool} (hk : k.InRam T) :
    (∀ p, placeBitmap ndebug T.regions k = .ok p → SafePlace T k p.slotsForBitmap (p.bitmapSize * 4)) ↔
      (AssertsPass ndebug T.regions k → (pageSize : Int) ≤ unborrowed T.regions k →
        ∀ r, SearchStopsAt k (bitmapBytes T.regions) T.regions r →
          ¬ WrappedEnd k (bitmapBytes T.regions) r ∧ ¬ AboveKernel T k (bitmapBytes T.regions) r) := by
  simp only [placeBitmap_ok_iff, wrap32_bitmapBytes]
  constructor
  · intro h ha hu r hr
    by_cases h0 : searchSlots k (bitmapBytes T.regions) T.regions = 0
    · exact not_misread_of_null hk hr h0
    · exact (safePlace_searchSlots_iff hk hr h0).1 (h _ ⟨ha, hu, h0, rfl⟩)
  · rintro h p ⟨ha, hu, h0, rfl⟩
    rcases searchSlots_cases k (bitmapBytes T.regions) T.regions with ⟨hz, -⟩ | ⟨r, hr⟩
    · exact absurd hz h0
    · exact (safePlace_searchSlots_iff hk hr h0).2 (h ha hu r hr)

end Safe

/-! ## The quantities of the code, in integers -/

def freeRam (T : RamTable) (k : KernelImage) : Int :=
  (RamTable.totalSize T.regions : Int) - ((k.stop : Int) - (k.kernelPhysicalStart : Int))

/-- `ceil (total_pages / 32) * 4`. -/
def neededBytes (T : RamTable) : Nat := (RamTable.totalPages T.regions + 31) / 32 * 4

section Exact

variable {T : RamTable} {k : KernelImage}

theorem udivAndCeil_32 (a : Nat) : udivAndCeil a 32 = (a + 31) / 32 := by
  unfold udivAndCeil
  split <;> omega

theorem bitmapSizeOf_eq (hT : RamTable.totalSize T.regions < 2 ^ 32) :
    bitmapSizeOf T.regions = (RamTable.totalPages T.regions + 31) / 32 := by
  rw [bitmapSizeOf, RamTable.getTotalMem_eq, wrap32_of_lt hT, RamTable.totalSize_eq T.regular,
    Nat.shiftRight_eq_div_pow, udivAndCeil_32]
  exact congrArg (fun n => (n + 31) / 32) (Nat.mul_div_cancel _ (by decide))

theorem bitmapBytes_eq (hT : RamTable.totalSize T.regions < 2 ^ 32) : bitmapBytes T.regions = neededBytes T := by
  rw [bitmapBytes, bitmapSizeOf_eq hT, neededBytes]

/-- A table that is the whole address space counts as no RAM. -/
theorem bitmapBytes_eq_zero (hT : RamTable.totalSize T.regions = 2 ^ 32) : bitmapBytes T.regions = 0 := by
  rw [bitmapBytes, bitmapSizeOf, RamTable.getTotalMem_eq, hT]
  rfl

theorem RamTable.totalSize_le_top (T : RamTable) : totalSize T.regions ≤ 2 ^ 32 :=
  T.totalSize_le fun r hr => (T.regular r hr).stop_le

theorem KernelImage.InRam.stop_lt (hk : k.InRam T) (hT : T.BelowTop) : k.stop < 2 ^ 32 := by
  obtain ⟨c, hc, -, hc2⟩ := hk.inside
  exact Nat.lt_of_le_of_lt hc2 (hT c hc)

/-- An image in RAM fails an assertion only when it ends at `2 ^ 32`, where its end symbol is 0. -/
theorem KernelImage.InRam.assertsPass_iff (hk : k.InRam T) (ndebug : Bool) :
    AssertsPass ndebug T.regions k ↔ ndebug = true ∨ k.stop < 2 ^ 32 := by
  obtain ⟨c, hc, -, -⟩ := hk.inside
  have hne := hk.nonempty
  refine or_congr_right ⟨?_, fun hlt => ?_⟩
  · rintro ⟨-, hle, -⟩
    have hsize : getKernelSize k = k.kernelPhysicalEnd - k.kernelPhysicalStart :=
      sub32_of_le (Nat.le_of_lt hle) k.end_lt
    have hend := k.end_lt
    rw [KernelImage.stop]
    omega
  · have hstop := k.stop_eq hlt
    obtain ⟨⟨i, hi⟩, ⟨j, hj⟩⟩ := hk.aligned
    have hsize : getKernelSize k = k.kernelPhysicalEnd - k.kernelPhysicalStart := by
      simp only [KernelImage.stop] at hstop
      omega
    refine ⟨List.length_pos_of_mem hc, by omega, ?_⟩
    rw [hsize, hi, hj, ← Nat.mul_sub]
    exact Nat.mul_mod_right _ _

theorem KernelImage.InRam.assertsPass (hk : k.InRam T) (hT : T.BelowTop) (ndebug : Bool) :
    AssertsPass ndebug T.regions k := (hk.assertsPass_iff ndebug).2 (Or.inr (hk.stop_lt hT))

theorem KernelImage.InRam.getKernelSize_le (hk : k.InRam T) : getKernelSize k ≤ RamTable.totalSize T.regions := by
  obtain ⟨c, hc, hc1, hc2⟩ := hk.inside
  have := RamTable.spaceSize_le hc
  simp only [KernelImage.stop, RamDescriptor.stop] at hc2
  omega

/-- **The guard, in integers**: it also fires on 2 GiB and more. -/
theorem unborrowed_lt_iff (hk : k.InRam T) :
    unborrowed T.regions k < (pageSize : Int) ↔ freeRam T k < 4096 ∨ 2 ^ 31 ≤ freeRam T k := by
  have hle := hk.getKernelSize_le
  have hne := hk.nonempty
  have htop := T.totalSize_le_top
  have hfree : freeRam T k = ((RamTable.totalSize T.regions - getKernelSize k : Nat) : Int) := by
    simp only [freeRam, KernelImage.stop]
    omega
  have hsub : sub32 (wrap32 (RamTable.totalSize T.regions)) (getKernelSize k) =
      RamTable.totalSize T.regions - getKernelSize k := by
    simp only [sub32, wrap32]
    omega
  rw [unborrowed, RamTable.getTotalMem_eq, hsub, hfree]
  simp only [toInt32, pageSize]
  split <;> omega

theorem KernelImage.InRam.totalPages_pos (hk : k.InRam T) : 0 < RamTable.totalPages T.regions := by
  obtain ⟨c, hc, -, -⟩ := hk.inside
  exact Nat.lt_of_lt_of_le (T.regular c hc).pages_pos (RamTable.pages_le hc)

theorem neededBytes_pos (hk : k.InRam T) : 0 < neededBytes T := by
  have hpos := hk.totalPages_pos
  unfold neededBytes
  omega

theorem neededWords_pos (hk : k.InRam T) : 0 < neededBytes T / 4 := by
  have hpos := hk.totalPages_pos
  unfold neededBytes
  omega

end Exact

/-! ## The region the search stops at -/

/-- The region has room for the bitmap from its start, up to the kernel unless its own end wraps, or from the end
symbol of the kernel up to its end. -/
def Takes (T : RamTable) (k : KernelImage) (r : RamDescriptor) : Prop :=
  neededBytes T ≤ (if r.stop = 2 ^ 32 then r.spaceSize else startRoom k r) ∨
    r.stop < 2 ^ 32 ∧ k.kernelPhysicalEnd + neededBytes T ≤ r.stop

/-- The assertions, where they are compiled in, and the guard on the RAM let the search run. -/
structure SearchRuns (ndebug : Bool) (T : RamTable) (k : KernelImage) : Prop where
  asserts : ndebug = true ∨ k.stop < 2 ^ 32
  freeRam_ge : 4096 ≤ freeRam T k
  freeRam_lt : freeRam T k < 2 ^ 31

section Search

variable {T : RamTable} {k : KernelImage} {r : RamDescriptor}

theorem searchRuns_iff (hk : k.InRam T) (ndebug : Bool) :
    SearchRuns ndebug T k ↔ AssertsPass ndebug T.regions k ∧ (pageSize : Int) ≤ unborrowed T.regions k := by
  have hguard := unborrowed_lt_iff hk
  rw [hk.assertsPass_iff]
  constructor
  · rintro ⟨h1, h2, h3⟩
    exact ⟨h1, by omega⟩
  · rintro ⟨h1, h2⟩
    exact ⟨h1, by omega, by omega⟩

theorem takes_iff (hk : k.InRam T) (hr : r ∈ T.regions) :
    Takes T k r ↔ startFits k (neededBytes T) r = true ∨ tailFits k (neededBytes T) r = true := by
  have hpos := neededBytes_pos hk
  unfold Takes
  rcases Nat.lt_or_eq_of_le (T.regular r hr).stop_le with hlt | htop
  · rw [startFits_iff hlt, tailFits_iff hlt, if_neg (Nat.ne_of_lt hlt), and_iff_right hlt]
    omega
  · rw [startFits_top (T.regular r hr) htop, tailFits_top htop, if_pos htop]
    simp only [Bool.false_eq_true, or_false]
    omega

theorem searchStopsAt_iff_takes (hk : k.InRam T) :
    SearchStopsAt k (neededBytes T) T.regions r ↔
      ∃ pre post, T.regions = pre ++ r :: post ∧ (∀ x ∈ pre, ¬ Takes T k x) ∧ Takes T k r := by
  have hpass : ∀ x ∈ T.regions, ¬ Takes T k x ↔
      startFits k (neededBytes T) x = false ∧ tailFits k (neededBytes T) x = false := fun x hx => by
    rw [takes_iff hk hx, not_or, Bool.not_eq_true, Bool.not_eq_true]
  refine exists₂_congr fun pre post => and_congr_right fun ht => ?_
  have hmem : ∀ x ∈ pre ++ r :: post, x ∈ T.regions := fun x hx => by rwa [ht]
  exact and_congr (forall₂_congr fun x hx => (hpass x (hmem x (by simp [hx]))).symm)
    (takes_iff hk (hmem r (by simp))).symm

theorem WrappedEnd.takes (h : WrappedEnd k (neededBytes T) r) : Takes T k r := by
  obtain ⟨htop, hroom, -⟩ := h
  exact Or.inl (by rwa [if_pos htop])

theorem AboveKernel.takes (h : AboveKernel T k (neededBytes T) r) : Takes T k r := by
  obtain ⟨-, hlt, hstop, hroom, -⟩ := h
  have hend := k.stop_eq (Nat.lt_trans hstop hlt)
  exact Or.inr ⟨hlt, by omega⟩

/-- Nothing is misread for a bitmap of no bytes. -/
theorem not_misread_zero : ¬ WrappedEnd k 0 r ∧ ¬ AboveKernel T k 0 r := by
  constructor
  · rintro ⟨-, -, h1, h2⟩
    omega
  · rintro ⟨hshort, -⟩
    exact Nat.not_lt_zero _ hshort

end Search

/-- **The bitmap is put on RAM and off the kernel** exactly when the first region with room for it, as the search
measures room, is neither one that ends at `2 ^ 32` over the kernel nor one whose end only looks like room past the
kernel. -/
theorem placeBitmap_safe_iff (ndebug : Bool) (T : RamTable) (k : KernelImage) (hk : k.InRam T) :
    (∀ p, placeBitmap ndebug T.regions k = .ok p → SafePlace T k p.slotsForBitmap (p.bitmapSize * 4)) ↔
      (RamTable.totalSize T.regions < 2 ^ 32 → SearchRuns ndebug T k →
        ∀ pre r post, T.regions = pre ++ r :: post → (∀ x ∈ pre, ¬ Takes T k x) →
          ¬ WrappedEnd k (neededBytes T) r ∧ ¬ AboveKernel T k (neededBytes T) r) := by
  rw [safePlace_placeBitmap_iff hk]
  constructor
  · intro h htotal hruns pre r post ht hpre
    obtain ⟨ha, hu⟩ := (searchRuns_iff hk ndebug).1 hruns
    rw [bitmapBytes_eq htotal] at h
    have hstops : Takes T k r → SearchStopsAt k (neededBytes T) T.regions r := fun hr =>
      (searchStopsAt_iff_takes hk).2 ⟨pre, post, ht, hpre, hr⟩
    exact ⟨fun hw => (h ha hu r (hstops hw.takes)).1 hw, fun habove => (h ha hu r (hstops habove.takes)).2 habove⟩
  · intro h ha hu r hr
    rcases Nat.lt_or_eq_of_le T.totalSize_le_top with htotal | hfull
    · rw [bitmapBytes_eq htotal] at hr ⊢
      obtain ⟨pre, post, ht, hpre, -⟩ := (searchStopsAt_iff_takes hk).1 hr
      exact h htotal ((searchRuns_iff hk ndebug).2 ⟨ha, hu⟩) pre r post ht hpre
    · rw [bitmapBytes_eq_zero hfull]
      exact not_misread_zero

/-- The last 64 KiB of the address space, with the kernel at their start. -/
def topRam : RamTable where
  regions := [⟨0xffff0000, 0x10000⟩]
  regular := by decide
  disjoint := by decide

def topKernel : KernelImage := ⟨0xffff0000, 0xffff1000, by decide, by decide⟩

/-- 256 MiB with the kernel at their end, and one page above a gap. -/
def gapRam : RamTable where
  regions := [⟨0x90010000, 0x1000⟩, ⟨0x80000000, 0x10000000⟩]
  regular := by decide
  disjoint := by decide

def gapKernel : KernelImage := ⟨0x8ffff000, 0x90000000, by decide, by decide⟩

theorem placeBitmap_safe_iff_gapRam :
    (∀ p, placeBitmap false gapRam.regions gapKernel = .ok p →
      SafePlace gapRam gapKernel p.slotsForBitmap (p.bitmapSize * 4)) ↔
      (RamTable.totalSize gapRam.regions < 2 ^ 32 → SearchRuns false gapRam gapKernel →
        ∀ pre r post, gapRam.regions = pre ++ r :: post → (∀ x ∈ pre, ¬ Takes gapRam gapKernel x) →
          ¬ WrappedEnd gapKernel (neededBytes gapRam) r ∧ ¬ AboveKernel gapRam gapKernel (neededBytes gapRam) r) :=
  placeBitmap_safe_iff false gapRam gapKernel (by decide)

/-- The bitmap on the kernel, and in the gap. -/
theorem unsafe_placements :
    (topKernel.InRam topRam ∧ placeBitmap false topRam.regions topKernel = .ok ⟨0xffff0000, 1⟩ ∧
      ¬ SafePlace topRam topKernel 0xffff0000 (1 * 4)) ∧
    (gapKernel.InRam gapRam ∧ placeBitmap false gapRam.regions gapKernel = .ok ⟨0x90000000, 2049⟩ ∧
      ¬ SafePlace gapRam gapKernel 0x90000000 (2049 * 4)) := by
  refine ⟨⟨by decide, by decide, fun ⟨_, hd⟩ => ?_⟩, by decide, by decide, fun ⟨⟨r, hr, hsub⟩, _⟩ => ?_⟩
  · rw [KernelImage.span, Spans.disjoint_iff] at hd
    revert hd
    decide
  · have hmem := hsub (show 0x90000000 ∈ _ by decide)
    rw [RamDescriptor.span, Set.mem_Ico] at hmem
    clear hsub
    revert r
    decide

end RiscvOs

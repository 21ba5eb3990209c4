import RiscvOs.Reservations
/-!
# A board with one region of RAM

With one region the two page numberings agree: the kernel is kept back and no page is lost.  The bitmap is kept back as
long as it fits in one page.
-/
namespace RiscvOs

section SingleRegion

variable {T : RamTable} {r : RamDescriptor} {k : KernelImage}

theorem firstNumber_single (hT : T.regions = [r]) (hlt : r.stop < 2 ^ 32) {a : Nat} (ha : 4096 ∣ a)
    (h1 : r.physicaddr ≤ a) (h2 : a ≤ r.stop) : T.firstNumber a = some ((a - r.physicaddr) / 4096) := by
  have hbelow : T.BelowTop := by
    rw [RamTable.BelowTop, hT]
    simpa using hlt
  have hppn := T.physicAddrToPpn_eq hbelow a
  rw [hT, physicAddrToPpn, maskOffset_of_dvd ha, physicAddrToPpnFrom_hit hlt [] h1 h2, Nat.zero_add,
    toInt32_of_lt (by omega)] at hppn
  cases hnum : T.firstNumber a with
  | none =>
    rw [hnum, Option.elim_none] at hppn
    omega
  | some number =>
    rw [hnum, Option.elim_some, Int.natCast_inj] at hppn
    rw [hppn]

theorem slotsFrom_single (hT : T.regions = [r]) (hlt : r.stop < 2 ^ 32) {a : Nat} (ha : 4096 ∣ a)
    (h1 : r.physicaddr ≤ a) (h2 : a ≤ r.stop) (n : Nat) :
    slotsFrom T a n =
      Finset.Ico ((a - r.physicaddr) / 4096) ((a - r.physicaddr) / 4096 + (n + 4095) / 4096) := by
  rw [slotsFrom, firstNumber_single hT hlt ha h1 h2]

theorem numbered_single (hT : T.regions = [r]) (q : Nat) : Numbered T r q := ⟨[], [], hT, by simp⟩

theorem pageSpan_disjoint_iff (hr : r.Regular) {a n q : Nat} (ha : 4096 ∣ a) (h1 : r.physicaddr ≤ a) (hn : 0 < n) :
    Disjoint (pageSpan (r.page q)) (Set.Ico a (a + n)) ↔
      q ∉ Finset.Ico ((a - r.physicaddr) / 4096) ((a - r.physicaddr) / 4096 + (n + 4095) / 4096) := by
  rw [← not_iff_not, not_not, pageSpan_meets_iff hr h1 hn, Nat.mod_eq_zero_of_dvd ha, Nat.zero_add, Finset.mem_Ico]

/-- Where the bitmap goes in the region: aligned, inside it and off the kernel. -/
theorem bitmapHome_single (hT : T.regions = [r]) (hlt : r.stop < 2 ^ 32) (hk : k.InRam T) {home : Nat}
    (h : bitmapHome T k = some home) :
    4096 ∣ home ∧ r.physicaddr ≤ home ∧ home + neededBytes T ≤ r.stop ∧
      Disjoint (Set.Ico home (home + neededBytes T)) k.span := by
  have hmem : r ∈ T.regions := by rw [hT]; exact List.mem_cons_self
  have hr := T.regular r hmem
  obtain ⟨c, hc, hc1, hc2⟩ := hk.inside
  rw [hT, List.mem_singleton] at hc
  subst hc
  have hstop := k.stop_eq (Nat.lt_of_le_of_lt hc2 hlt)
  have hne := hk.nonempty
  have hstart : startRoom k c = k.kernelPhysicalStart - c.physicaddr := by
    rw [startRoom_eq hk hmem, if_pos ⟨hc1, hc2⟩]
  rw [bitmapHome, hT, bitmapHomeIn] at h
  rw [KernelImage.span, Spans.disjoint_iff]
  simp only [KernelImage.stop] at *
  split at h
  case isTrue hs =>
    cases h
    rw [hstart] at hs
    exact ⟨hr.aligned.1, Nat.le_refl _, by omega, by omega⟩
  case isFalse =>
    split at h
    case isTrue ht =>
      cases h
      exact ⟨hk.aligned.2, by omega, by omega, by omega⟩
    case isFalse => cases h

/-- A slot is marked when its page meets the kernel, and for the first quarter of the bytes of the bitmap. -/
theorem mem_markedSlots_single (hT : T.regions = [r]) (hlt : r.stop < 2 ^ 32) (hk : k.InRam T) {home : Nat}
    (hhome : bitmapHome T k = some home) (q : Nat) :
    q ∈ markedSlots T k ↔ ¬ Disjoint (pageSpan (r.page q)) k.span ∨
      ¬ Disjoint (pageSpan (r.page q)) (Set.Ico home (home + neededBytes T / 4)) := by
  have hr := T.regular r (by rw [hT]; exact List.mem_cons_self)
  obtain ⟨hdvd, hle, hfit, -⟩ := bitmapHome_single hT hlt hk hhome
  have hwords := neededWords_pos hk
  obtain ⟨c, hc, hc1, hc2⟩ := hk.inside
  rw [hT, List.mem_singleton] at hc
  subst hc
  have hkstop : k.kernelPhysicalStart ≤ c.stop := Nat.le_trans (Nat.le_add_right _ _) hc2
  rw [KernelImage.span, KernelImage.stop, pageSpan_disjoint_iff hr hk.aligned.1 hc1 hk.nonempty,
    pageSpan_disjoint_iff hr hdvd hle hwords, not_not, not_not, markedSlots, hhome, Finset.mem_union,
    slotsFrom_single hT hlt hk.aligned.1 hc1 hkstop, Option.elim_some, slotsFrom_single hT hlt hdvd hle (by omega)]

/-- A bitmap longer than one page: the page after its marked ones is still one of the bitmap's. -/
theorem exists_unmarked_storage_page (hT : T.regions = [r]) (hlt : r.stop < 2 ^ 32) (hk : k.InRam T) {home : Nat}
    (hhome : bitmapHome T k = some home) (hbig : 4096 < neededBytes T) :
    ∃ q < r.pages, r.page q ≠ 0 ∧ ¬ Disjoint (pageSpan (r.page q)) (Set.Ico home (home + neededBytes T)) ∧
      q ∉ markedSlots T k := by
  have hr := T.regular r (by rw [hT]; exact List.mem_cons_self)
  obtain ⟨hdvd, hle, hfit, hoff⟩ := bitmapHome_single hT hlt hk hhome
  obtain ⟨i, hi⟩ := hdvd
  obtain ⟨j, hj⟩ := hr.aligned.1
  have hpage : r.page ((home - r.physicaddr) / 4096 + (neededBytes T / 4 + 4095) / 4096) =
      home + (neededBytes T / 4 + 4095) / 4096 * 4096 := by
    rw [RamDescriptor.page]
    omega
  generalize (home - r.physicaddr) / 4096 + (neededBytes T / 4 + 4095) / 4096 = q at hpage
  have hin : r.page q < home + neededBytes T := by
    rw [hpage]
    omega
  refine ⟨q, ?_, by omega, ?_, fun hmark => ?_⟩
  · have hstop := hr.stop_eq
    rw [RamDescriptor.page] at hin
    omega
  · rw [pageSpan, Spans.disjoint_iff]
    omega
  · rcases (mem_markedSlots_single hT hlt hk hhome q).1 hmark with hkern | hown
    · -- the kernel starts and ends between pages, and its own pages are off the bitmap
      obtain ⟨a, ha⟩ := hk.aligned.1
      obtain ⟨b, hb⟩ := hk.aligned.2
      rw [KernelImage.span, k.stop_eq (hk.stop_lt (by rw [RamTable.BelowTop, hT]; simpa using hlt))] at hkern hoff
      rw [pageSpan, Spans.disjoint_iff] at hkern
      rw [Spans.disjoint_iff] at hoff
      omega
    · rw [pageSpan, Spans.disjoint_iff] at hown
      omega

theorem covered_storage_single_iff (hT : T.regions = [r]) (hlt : r.stop < 2 ^ 32) (hk : k.InRam T) {home : Nat}
    (hhome : bitmapHome T k = some home) : Covered T k (storage T k) ↔ neededBytes T ≤ 4096 := by
  have hmem : r ∈ T.regions := by rw [hT]; exact List.mem_cons_self
  have hwords := neededWords_pos hk
  obtain ⟨hdvd, hle, -, -⟩ := bitmapHome_single hT hlt hk hhome
  rw [storage, hhome, Option.elim_some]
  constructor
  · intro hcov
    by_contra hbig
    obtain ⟨q, hq, hne, hmeets, hout⟩ := exists_unmarked_storage_page hT hlt hk hhome (Nat.lt_of_not_le hbig)
    exact hout (hcov r hmem q hq (numbered_single hT q) hne hmeets)
  · intro hsmall x hx q hq _ _ hmeets
    rw [hT, List.mem_singleton] at hx
    subst hx
    have hr := T.regular x hmem
    refine (mem_markedSlots_single hT hlt hk hhome q).2 (Or.inr ?_)
    rw [pageSpan_disjoint_iff hr hdvd hle (by omega), Finset.mem_Ico] at hmeets
    rw [pageSpan_disjoint_iff hr hdvd hle hwords, Finset.mem_Ico]
    omega

end SingleRegion

/-- **One region**: the kernel is never handed out, the bitmap is not as long as there are at most 32768 pages, and
unless the region starts at 0 every other page has been handed out by the first `NULL`. -/
theorem pmmRun_single (ndebug : Bool) (T : RamTable) (r : RamDescriptor) (hT : T.regions = [r])
    (hlt : r.stop < 2 ^ 32) (k : KernelImage) (hk : k.InRam T) (mem : Mem 32) (s : BitmapState 32)
    (h : initPhysAllocator ndebug T.regions k mem = .ok s) :
    (∀ n, ∀ p ∈ (pmmRun T.regions n s).1, p ≠ 0 → Disjoint (pageSpan p) k.span) ∧
    ((∀ n, ∀ p ∈ (pmmRun T.regions n s).1, p ≠ 0 → Disjoint (pageSpan p) (storage T k)) ↔ r.pages ≤ 32768) ∧
    (0 < r.physicaddr → ∀ n ps, (pmmRun T.regions n s).1 = ps ++ [0] → ∀ q < r.pages,
      Disjoint (pageSpan (r.page q)) k.span → Disjoint (pageSpan (r.page q)) (storage T k) → r.page q ∈ ps) := by
  have hbelow : T.BelowTop := by
    rw [RamTable.BelowTop, hT]
    simpa using hlt
  have hmem : r ∈ T.regions := by rw [hT]; exact List.mem_cons_self
  obtain ⟨hhome, -⟩ := initPhysAllocator_state hbelow h
  refine ⟨(pmmRun_avoids_iff hbelow h _).2 fun x hx q hq _ _ hmeets => ?_, ?_,
    fun hpos n ps hrun q hq hkern hstore => ?_⟩
  · rw [hT, List.mem_singleton] at hx
    subst hx
    exact (mem_markedSlots_single hT hlt hk hhome q).2 (Or.inl hmeets)
  · rw [pmmRun_avoids_iff hbelow h, covered_storage_single_iff hT hlt hk hhome, neededBytes, hT]
    simp only [RamTable.totalPages, List.map_cons, List.map_nil, List.sum_cons, List.sum_nil]
    omega
  · have hall : ∀ x ∈ T.regions, 0 < x.physicaddr := by
      rw [hT]
      simpa using hpos
    refine (page_mem_before_null_iff hbelow hall h hrun hmem hq).2 ⟨numbered_single hT q, fun hmark => ?_⟩
    rcases (mem_markedSlots_single hT hlt hk hhome q).1 hmark with hk' | hs'
    · exact hk' hkern
    · refine hs' (hstore.mono_right ?_)
      rw [storage, hhome, Option.elim_some]
      exact Set.Ico_subset_Ico_right (by omega)

/-- 256 MiB are 65536 pages: the second page of the bitmap is handed out, the kernel is not and no page is lost. -/
theorem pmmRun_single_boardRam :
    ∃ s, initPhysAllocator false boardRam.regions boardKernel (fun _ => 0) = .ok s ∧
      (∀ n, ∀ p ∈ (pmmRun boardRam.regions n s).1, p ≠ 0 → Disjoint (pageSpan p) boardKernel.span) ∧
      ((∀ n, ∀ p ∈ (pmmRun boardRam.regions n s).1, p ≠ 0 →
        Disjoint (pageSpan p) (storage boardRam boardKernel)) ↔ 65536 ≤ 32768) ∧
      (0 < 0x80000000 → ∀ n ps, (pmmRun boardRam.regions n s).1 = ps ++ [0] → ∀ q < 65536,
        Disjoint (pageSpan (RamDescriptor.page ⟨0x80000000, 0x10000000⟩ q)) boardKernel.span →
        Disjoint (pageSpan (RamDescriptor.page ⟨0x80000000, 0x10000000⟩ q)) (storage boardRam boardKernel) →
          RamDescriptor.page ⟨0x80000000, 0x10000000⟩ q ∈ ps) := by
  obtain ⟨s, hs⟩ := boardRam_init
  exact ⟨s, hs, pmmRun_single false boardRam ⟨0x80000000, 0x10000000⟩ rfl (by decide) boardKernel (by decide) _ s hs⟩

end RiscvOs

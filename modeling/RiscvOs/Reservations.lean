import RiscvOs.InitPanics
import RiscvOs.PhysRuns
import RiscvOs.Places
/-!
# What the reservations keep back

`init_phys_allocator` marks slots from the number the table gives the first page (`RamTable.firstNumber`), and as many
for the bitmap as it has words in pages; `pmm_allocate_page` takes a slot for the page of that index in a region.  Which
pages a run can return, and which it loses, is decided by comparing the two.
-/
namespace RiscvOs

/-! ## The pages and the reserved slots, in integers -/

def pageSpan (p : Nat) : Set Nat := Set.Ico p (p + 4096)

/-- The pages that meet a span of bytes: from the one its first byte is in to the one its last byte is in. -/
theorem pageSpan_meets_iff {r : RamDescriptor} (hr : r.Regular) {a n q : Nat} (h1 : r.physicaddr ≤ a) (hn : 0 < n) :
    ¬ Disjoint (pageSpan (r.page q)) (Set.Ico a (a + n)) ↔
      (a - r.physicaddr) / 4096 ≤ q ∧ q < (a - r.physicaddr) / 4096 + (a % 4096 + n + 4095) / 4096 := by
  obtain ⟨j, hj⟩ := hr.aligned.1
  rw [pageSpan, Spans.disjoint_iff, RamDescriptor.page]
  omega

/-- Where the first region of the rest of the table with room for `bytes` has it. -/
def bitmapHomeIn (k : KernelImage) (bytes : Nat) : List RamDescriptor → Option Nat
  | []     => none
  | r :: t =>
    if bytes ≤ startRoom k r then some r.physicaddr
    else if k.kernelPhysicalEnd < r.stop ∧ bytes ≤ r.stop - k.kernelPhysicalEnd then some k.kernelPhysicalEnd
    else bitmapHomeIn k bytes t

def bitmapHome (T : RamTable) (k : KernelImage) : Option Nat := bitmapHomeIn k (neededBytes T) T.regions

def storage (T : RamTable) (k : KernelImage) : Set Nat :=
  (bitmapHome T k).elim ∅ fun home => Set.Ico home (home + neededBytes T)

/-- As many slots as `n` bytes have pages, from the number of the page of `a` on. -/
def slotsFrom (T : RamTable) (a n : Nat) : Finset Nat :=
  match T.firstNumber a with
  | none        => ∅
  | some number => Finset.Ico number (number + (n + 4095) / 4096)

/-- The slots marked: one for each page of the kernel, one for each 4096 words of the bitmap. -/
def markedSlots (T : RamTable) (k : KernelImage) : Finset Nat :=
  slotsFrom T k.kernelPhysicalStart (getKernelSize k) ∪
    (bitmapHome T k).elim ∅ fun home => slotsFrom T home (neededBytes T / 4)

/-- No region before `r` in the table has a page of index `q`. -/
def Numbered (T : RamTable) (r : RamDescriptor) (q : Nat) : Prop :=
  ∃ pre post, T.regions = pre ++ r :: post ∧ ∀ x ∈ pre, x.pages ≤ q

/-- Each page of RAM that slot `q` stands for and that meets `S` has its slot marked. -/
def Covered (T : RamTable) (k : KernelImage) (S : Set Nat) : Prop :=
  ∀ r ∈ T.regions, ∀ q < r.pages, Numbered T r q → r.page q ≠ 0 → ¬ Disjoint (pageSpan (r.page q)) S →
    q ∈ markedSlots T k

theorem findPhysicalAddrOfPage_eq_page (T : RamTable) {r : RamDescriptor} (hr : r ∈ T.regions) {q : Nat}
    (hq : q < r.pages) (h0 : r.page q ≠ 0) (i : Nat) :
    findPhysicalAddrOfPage T.regions i = r.page q ↔ i = q ∧ Numbered T r q := by
  constructor
  · obtain ⟨pre, post, ht⟩ := List.append_of_mem hr
    intro h
    obtain ⟨rfl, hpre⟩ := (findPhysicalAddrOfPage_eq_page_iff hq h0 ht T.regular T.disjoint i).1 h
    exact ⟨rfl, pre, post, ht, hpre⟩
  · rintro ⟨rfl, pre, post, ht, hpre⟩
    exact (findPhysicalAddrOfPage_eq_page_iff hq h0 ht T.regular T.disjoint i).2 ⟨rfl, hpre⟩

theorem borrowedSlots_eq {T : RamTable} (hT : T.BelowTop) (a : Nat) {n : Nat} (hn : n < 2 ^ 32) :
    borrowedSlots T.regions a n = slotsFrom T a n := by
  have hle := T.totalPages_le
  rw [borrowedSlots, T.physicAddrToPpn_eq hT, pagesToBorrow_eq, slotsFrom]
  cases hnum : T.firstNumber a with
  | none =>
    refine Finset.Ico_eq_empty_of_le ?_
    simp only [Option.elim_none, wrap32, toUint32]
    omega
  | some number =>
    have hbound := T.firstNumber_le hnum
    simp only [Option.elim_some, toUint32_natCast (show number < 2 ^ 32 by omega)]
    rw [wrap32_of_lt (by omega)]

/-! ## After a successful initialisation -/

theorem searchSlots_eq_bitmapHomeIn {k : KernelImage} {bytes : Nat} : ∀ {t : List RamDescriptor},
    (∀ r ∈ t, r.stop < 2 ^ 32) → searchSlots k bytes t = (bitmapHomeIn k bytes t).getD 0
  | [], _ => rfl
  | r :: t, hlt => by
    have hr := hlt r List.mem_cons_self
    rw [searchSlots, bitmapHomeIn]
    by_cases hs : bytes ≤ startRoom k r
    · rw [if_pos ((startFits_iff hr).2 hs), if_pos hs]
      rfl
    · rw [if_neg (fun h => hs ((startFits_iff hr).1 h)), if_neg hs]
      by_cases ht : k.kernelPhysicalEnd < r.stop ∧ bytes ≤ r.stop - k.kernelPhysicalEnd
      · rw [if_pos ((tailFits_iff hr).2 ht), if_pos ht]
        rfl
      · rw [if_neg (fun h => ht ((tailFits_iff hr).1 h)), if_neg ht]
        exact searchSlots_eq_bitmapHomeIn fun x hx => hlt x (List.mem_cons_of_mem _ hx)

section Init

variable {ndebug : Bool} {T : RamTable} {k : KernelImage} {mem : Mem 32} {s : BitmapState 32}

/-- A bitmap that has a place has pages to stand for. -/
theorem totalPages_pos_of_bitmapHome {home : Nat} (h : bitmapHome T k = some home) :
    0 < RamTable.totalPages T.regions := by
  cases hreg : T.regions with
  | nil => simp [bitmapHome, hreg, bitmapHomeIn] at h
  | cons r t =>
    have hr : r ∈ T.regions := by rw [hreg]; exact List.mem_cons_self
    rw [← hreg]
    exact Nat.lt_of_lt_of_le (T.regular r hr).pages_pos (RamTable.pages_le hr)

/-- **What initialisation leaves**: the bitmap at its home, one bit a page at least, and the marked slots in use. -/
theorem initPhysAllocator_state (hT : T.BelowTop) (h : initPhysAllocator ndebug T.regions k mem = .ok s) :
    bitmapHome T k = some s.map.slotsPtr ∧ s.map.slotsSize * 4 = neededBytes T ∧
      RamTable.totalPages T.regions ≤ s.capacity ∧ s.capacity ≤ 2 ^ 32 ∧
      ∀ q, q ∈ s.used ↔ q < s.capacity ∧ q ∈ markedSlots T k := by
  obtain ⟨p, hp, hstate⟩ := initPhysAllocator_ok h
  obtain ⟨-, -, hne, hpe⟩ := placeBitmap_ok_iff.1 hp
  have hsize : p.bitmapSize = (RamTable.totalPages T.regions + 31) / 32 := by rw [hpe, bitmapSizeOf_eq hT.totalSize_lt]
  have hslots : p.slotsForBitmap = (bitmapHome T k).getD 0 := by
    rw [hpe, wrap32_bitmapBytes, bitmapBytes_eq hT.totalSize_lt, searchSlots_eq_bitmapHomeIn hT]
    rfl
  have hhome : bitmapHome T k = some p.slotsForBitmap := by
    cases hb : bitmapHome T k with
    | none =>
      rw [hb, hpe] at hslots
      exact absurd hslots hne
    | some home =>
      rw [hb] at hslots
      rw [hslots]
      rfl
  have hpages := totalPages_pos_of_bitmapHome hhome
  obtain ⟨hptr, hwords, hused⟩ := hstate (by rw [hsize]; omega)
  have hcap : s.capacity = p.bitmapSize * 32 := by rw [BitmapState.capacity, hwords]
  have hbytes : neededBytes T = p.bitmapSize * 4 := by rw [neededBytes, hsize]
  have hle := T.totalPages_le
  refine ⟨by rw [hhome, hptr], by rw [hwords, hbytes], by rw [hcap, hsize]; omega, by rw [hcap, hsize]; omega,
    fun q => ?_⟩
  rw [hused, hcap, markedSlots, hhome, hbytes, Nat.mul_div_cancel _ (by decide),
    borrowedSlots_eq hT _ k.getKernelSize_lt, borrowedSlots_eq hT _ (by omega), Finset.mem_union]
  rfl

theorem initPhysAllocator_free (hT : T.BelowTop) (h : initPhysAllocator ndebug T.regions k mem = .ok s)
    {r : RamDescriptor} (hr : r ∈ T.regions) {q : Nat} (hq : q < r.pages) : q ∈ s.free ↔ q ∉ markedSlots T k := by
  obtain ⟨-, -, hpages, -, hused⟩ := initPhysAllocator_state hT h
  have hle : r.pages ≤ RamTable.totalPages T.regions := RamTable.pages_le hr
  rw [BitmapState.mem_free, hused, and_iff_right (by omega), and_iff_right (by omega)]

theorem exists_mem_pmmRun_page (hT : T.BelowTop) (h : initPhysAllocator ndebug T.regions k mem = .ok s)
    {r : RamDescriptor} (hr : r ∈ T.regions) {q : Nat} (hq : q < r.pages) (h0 : r.page q ≠ 0) :
    (∃ n, r.page q ∈ (pmmRun T.regions n s).1) ↔ Numbered T r q ∧ q ∉ markedSlots T k := by
  obtain ⟨-, -, -, hcap, -⟩ := initPhysAllocator_state hT h
  rw [exists_mem_pmmRun T.regular hcap h0]
  constructor
  · rintro ⟨i, hi, hfind⟩
    obtain ⟨rfl, hnum⟩ := (findPhysicalAddrOfPage_eq_page T hr hq h0 i).1 hfind
    exact ⟨hnum, (initPhysAllocator_free hT h hr hq).1 hi⟩
  · rintro ⟨hnum, hres⟩
    exact ⟨q, (initPhysAllocator_free hT h hr hq).2 hres, (findPhysicalAddrOfPage_eq_page T hr hq h0 q).2 ⟨rfl, hnum⟩⟩

/-- **No page of any run meets `S`** exactly when every slot standing for a page that does is marked. -/
theorem pmmRun_avoids_iff (hT : T.BelowTop) (h : initPhysAllocator ndebug T.regions k mem = .ok s) (S : Set Nat) :
    (∀ n, ∀ p ∈ (pmmRun T.regions n s).1, p ≠ 0 → Disjoint (pageSpan p) S) ↔ Covered T k S := by
  constructor
  · intro hall r hr q hq hnum h0 hmeets
    by_contra hres
    obtain ⟨n, hn⟩ := (exists_mem_pmmRun_page hT h hr hq h0).2 ⟨hnum, hres⟩
    exact hmeets (hall n _ hn h0)
  · intro hcov n p hp h0
    by_contra hmeets
    obtain ⟨-, -, -, hcap, -⟩ := initPhysAllocator_state hT h
    obtain ⟨q, -, hfind⟩ := (exists_mem_pmmRun T.regular hcap h0).1 ⟨n, hp⟩
    obtain ⟨r, hr, hlt, hpage⟩ := findPhysicalAddrOfPage_mem T.regular (hfind ▸ h0)
    rw [hfind] at hpage
    subst hpage
    obtain ⟨hnum, hres⟩ := (exists_mem_pmmRun_page hT h hr hlt h0).1 ⟨n, hp⟩
    exact hres (hcov r hr q hlt hnum h0 hmeets)

theorem storage_eq (hT : T.BelowTop) (h : initPhysAllocator ndebug T.regions k mem = .ok s) :
    Set.Ico s.map.slotsPtr (s.map.slotsPtr + s.map.slotsSize * 4) = storage T k := by
  obtain ⟨hhome, hwords, -⟩ := initPhysAllocator_state hT h
  rw [hwords, storage, hhome]
  rfl

theorem page_mem_before_null_iff (hT : T.BelowTop) (hpos : ∀ r ∈ T.regions, 0 < r.physicaddr)
    (h : initPhysAllocator ndebug T.regions k mem = .ok s) {n : Nat} {ps : List Nat}
    (hrun : (pmmRun T.regions n s).1 = ps ++ [0]) {r : RamDescriptor} (hr : r ∈ T.regions) {q : Nat}
    (hq : q < r.pages) : r.page q ∈ ps ↔ Numbered T r q ∧ q ∉ markedSlots T k := by
  obtain ⟨-, -, -, hcap, -⟩ := initPhysAllocator_state hT h
  have h0 : r.page q ≠ 0 := Nat.ne_of_gt (Nat.lt_of_lt_of_le (hpos r hr) (Nat.le_add_right _ _))
  rw [mem_before_null_iff T.regular hpos hcap hrun h0, ← exists_mem_pmmRun T.regular hcap h0,
    exists_mem_pmmRun_page hT h hr hq h0]

end Init

/-! ## The bitmap -/

/-- **The bitmap is never handed out** exactly when the slots of all its pages are marked. -/
theorem pmmRun_avoids_bitmap_iff (ndebug : Bool) (T : RamTable) (hT : T.BelowTop) (k : KernelImage) (mem : Mem 32)
    (s : BitmapState 32) (h : initPhysAllocator ndebug T.regions k mem = .ok s) :
    (∀ n, ∀ p ∈ (pmmRun T.regions n s).1, p ≠ 0 →
      Disjoint (pageSpan p) (Set.Ico s.map.slotsPtr (s.map.slotsPtr + s.map.slotsSize * 4))) ↔
      Covered T k (storage T k) := by
  rw [storage_eq hT h]
  exact pmmRun_avoids_iff hT h (storage T k)

/-- 256 MiB, with the kernel in the first page: two pages of bitmap. -/
def boardRam : RamTable where
  regions := [⟨0x80000000, 0x10000000⟩]
  regular := by decide
  disjoint := by decide

def boardKernel : KernelImage := ⟨0x80000000, 0x80001000, by decide, by decide⟩

theorem boardRam_init : ∃ s, initPhysAllocator false boardRam.regions boardKernel (fun _ => 0) = .ok s :=
  initPhysAllocator_of_placed _
    (show placeBitmap false boardRam.regions boardKernel = .ok ⟨0x80001000, 2048⟩ by decide)
    (Or.inr (by decide)) (Or.inr (by decide))

theorem pmmRun_avoids_bitmap_iff_boardRam :
    ∃ s, initPhysAllocator false boardRam.regions boardKernel (fun _ => 0) = .ok s ∧
      ((∀ n, ∀ p ∈ (pmmRun boardRam.regions n s).1, p ≠ 0 →
        Disjoint (pageSpan p) (Set.Ico s.map.slotsPtr (s.map.slotsPtr + s.map.slotsSize * 4))) ↔
        Covered boardRam boardKernel (storage boardRam boardKernel)) := by
  obtain ⟨s, hs⟩ := boardRam_init
  exact ⟨s, hs, pmmRun_avoids_bitmap_iff false boardRam (by decide) boardKernel _ s hs⟩

/-- The 2048 words of the bitmap are taken for half a page: its second page is handed out. -/
theorem boardRam_hands_out_bitmap :
    boardRam.BelowTop ∧ boardKernel.InRam boardRam ∧
      ∃ s, initPhysAllocator false boardRam.regions boardKernel (fun _ => 0) = .ok s ∧
        s.map.slotsPtr = 0x80001000 ∧ s.map.slotsSize * 4 = 0x2000 ∧
        (∃ n, 0x80002000 ∈ (pmmRun boardRam.regions n s).1) ∧
        ¬ ∀ n, ∀ p ∈ (pmmRun boardRam.regions n s).1, p ≠ 0 →
          Disjoint (pageSpan p) (Set.Ico s.map.slotsPtr (s.map.slotsPtr + s.map.slotsSize * 4)) := by
  have hT : boardRam.BelowTop := by decide
  obtain ⟨s, hs⟩ := boardRam_init
  obtain ⟨hhome, hwords, -⟩ := initPhysAllocator_state hT hs
  have hptr : s.map.slotsPtr = 0x80001000 := by
    rw [show bitmapHome boardRam boardKernel = some 0x80001000 by decide] at hhome
    exact (Option.some.inj hhome).symm
  have hsize : s.map.slotsSize * 4 = 0x2000 := hwords.trans (by decide)
  have hout : ∃ n, 0x80002000 ∈ (pmmRun boardRam.regions n s).1 :=
    (exists_mem_pmmRun_page hT hs (r := ⟨0x80000000, 0x10000000⟩) (q := 2) (by decide) (by decide) (by decide)).2
      ⟨⟨[], [], rfl, by simp⟩, by decide⟩
  refine ⟨hT, by decide, s, hs, hptr, hsize, hout, fun hall => ?_⟩
  obtain ⟨n, hn⟩ := hout
  have hd := hall n _ hn (by decide)
  rw [hptr, hsize, pageSpan, Spans.disjoint_iff] at hd
  omega

/-! ## The kernel -/

/-- **The kernel is never handed out** exactly when the slots of all its pages are marked. -/
theorem pmmRun_avoids_kernel_iff (ndebug : Bool) (T : RamTable) (hT : T.BelowTop) (k : KernelImage) (mem : Mem 32)
    (s : BitmapState 32) (h : initPhysAllocator ndebug T.regions k mem = .ok s) :
    (∀ n, ∀ p ∈ (pmmRun T.regions n s).1, p ≠ 0 → Disjoint (pageSpan p) k.span) ↔ Covered T k k.span :=
  pmmRun_avoids_iff hT h k.span

def highKernel : KernelImage := ⟨0x90005000, 0x90006000, by decide, by decide⟩

theorem twoRegions_init : ∃ s, initPhysAllocator false twoRegions.regions highKernel (fun _ => 0) = .ok s :=
  initPhysAllocator_of_placed _
    (show placeBitmap false twoRegions.regions highKernel = .ok ⟨0x80000000, 1⟩ by decide)
    (Or.inr (by decide)) (Or.inr (by decide))

theorem pmmRun_avoids_kernel_iff_twoRegions :
    ∃ s, initPhysAllocator false twoRegions.regions highKernel (fun _ => 0) = .ok s ∧
      ((∀ n, ∀ p ∈ (pmmRun twoRegions.regions n s).1, p ≠ 0 → Disjoint (pageSpan p) highKernel.span) ↔
        Covered twoRegions highKernel highKernel.span) := by
  obtain ⟨s, hs⟩ := twoRegions_init
  exact ⟨s, hs, pmmRun_avoids_kernel_iff false twoRegions (by decide) highKernel _ s hs⟩

/-- The kernel's page is number 9 when it is marked and number 5 when it is handed out. -/
theorem twoRegions_hands_out_kernel :
    twoRegions.BelowTop ∧ highKernel.InRam twoRegions ∧
      ∃ s, initPhysAllocator false twoRegions.regions highKernel (fun _ => 0) = .ok s ∧
        (∃ n, 0x90005000 ∈ (pmmRun twoRegions.regions n s).1) ∧
        ¬ ∀ n, ∀ p ∈ (pmmRun twoRegions.regions n s).1, p ≠ 0 → Disjoint (pageSpan p) highKernel.span := by
  have hT : twoRegions.BelowTop := by decide
  obtain ⟨s, hs⟩ := twoRegions_init
  have hout : ∃ n, 0x90005000 ∈ (pmmRun twoRegions.regions n s).1 :=
    (exists_mem_pmmRun_page hT hs (r := ⟨0x90000000, 0x8000⟩) (q := 5) (by decide) (by decide) (by decide)).2
      ⟨⟨[⟨0x80000000, 0x4000⟩], [], rfl, by decide⟩, by decide⟩
  refine ⟨hT, by decide, s, hs, hout, fun hall => ?_⟩
  obtain ⟨n, hn⟩ := hout
  have hd := hall n _ hn (by decide)
  revert hd
  rw [pageSpan, KernelImage.span, Spans.disjoint_iff]
  decide

/-! ## The pages lost -/

/-- **No page is lost** exactly when every page off the kernel and off the bitmap has its slot standing for it, not
marked. -/
theorem pmmRun_loses_none_iff (ndebug : Bool) (T : RamTable) (hT : T.BelowTop)
    (hpos : ∀ r ∈ T.regions, 0 < r.physicaddr) (k : KernelImage) (mem : Mem 32) (s : BitmapState 32)
    (h : initPhysAllocator ndebug T.regions k mem = .ok s) :
    (∀ n ps, (pmmRun T.regions n s).1 = ps ++ [0] → 0 ∉ ps →
      ∀ r ∈ T.regions, ∀ q < r.pages, Disjoint (pageSpan (r.page q)) k.span →
        Disjoint (pageSpan (r.page q)) (Set.Ico s.map.slotsPtr (s.map.slotsPtr + s.map.slotsSize * 4)) →
        r.page q ∈ ps) ↔
      ∀ r ∈ T.regions, ∀ q < r.pages, Disjoint (pageSpan (r.page q)) k.span →
        Disjoint (pageSpan (r.page q)) (storage T k) → Numbered T r q ∧ q ∉ markedSlots T k := by
  rw [storage_eq hT h]
  constructor
  · intro hall r hr q hq hkern hstore
    obtain ⟨-, -, -, hcap, -⟩ := initPhysAllocator_state hT h
    obtain ⟨n, ps, hrun, hps⟩ := exists_first_null (s := s) T.regular hcap
    exact (page_mem_before_null_iff hT hpos h hrun hr hq).1 (hall n ps hrun hps r hr q hq hkern hstore)
  · intro hall n ps hrun _ r hr q hq hkern hstore
    exact (page_mem_before_null_iff hT hpos h hrun hr hq).2 (hall r hr q hq hkern hstore)

theorem pmmRun_loses_none_iff_twoRegions :
    ∃ s, initPhysAllocator false twoRegions.regions highKernel (fun _ => 0) = .ok s ∧
      ((∀ n ps, (pmmRun twoRegions.regions n s).1 = ps ++ [0] → 0 ∉ ps →
        ∀ r ∈ twoRegions.regions, ∀ q < r.pages, Disjoint (pageSpan (r.page q)) highKernel.span →
          Disjoint (pageSpan (r.page q)) (Set.Ico s.map.slotsPtr (s.map.slotsPtr + s.map.slotsSize * 4)) →
          r.page q ∈ ps) ↔
        ∀ r ∈ twoRegions.regions, ∀ q < r.pages, Disjoint (pageSpan (r.page q)) highKernel.span →
          Disjoint (pageSpan (r.page q)) (storage twoRegions highKernel) →
          Numbered twoRegions r q ∧ q ∉ markedSlots twoRegions highKernel) := by
  obtain ⟨s, hs⟩ := twoRegions_init
  exact ⟨s, hs, pmmRun_loses_none_iff false twoRegions (by decide) (by decide) highKernel _ s hs⟩

/-- The four slots that would stand for the first pages of the second region stand for the first region. -/
theorem twoRegions_loses_page :
    twoRegions.BelowTop ∧ (∀ r ∈ twoRegions.regions, 0 < r.physicaddr) ∧
      ∃ s, initPhysAllocator false twoRegions.regions highKernel (fun _ => 0) = .ok s ∧
        ¬ ∀ n ps, (pmmRun twoRegions.regions n s).1 = ps ++ [0] → 0 ∉ ps →
          ∀ r ∈ twoRegions.regions, ∀ q < r.pages, Disjoint (pageSpan (r.page q)) highKernel.span →
            Disjoint (pageSpan (r.page q)) (Set.Ico s.map.slotsPtr (s.map.slotsPtr + s.map.slotsSize * 4)) →
            r.page q ∈ ps := by
  have hT : twoRegions.BelowTop := by decide
  have hpos : ∀ r ∈ twoRegions.regions, 0 < r.physicaddr := by decide
  obtain ⟨s, hs⟩ := twoRegions_init
  refine ⟨hT, hpos, s, hs, fun hall => ?_⟩
  have hr : (⟨0x90000000, 0x8000⟩ : RamDescriptor) ∈ twoRegions.regions := by decide
  obtain ⟨hhome, hwords, -, hcap, -⟩ := initPhysAllocator_state hT hs
  rw [show bitmapHome twoRegions highKernel = some 0x80000000 by decide] at hhome
  obtain ⟨n, ps, hrun, hps⟩ := exists_first_null (s := s) twoRegions.regular hcap
  have hkern : Disjoint (pageSpan 0x90000000) highKernel.span := by
    rw [pageSpan, KernelImage.span, Spans.disjoint_iff]
    decide
  have hstore : Disjoint (pageSpan 0x90000000)
      (Set.Ico s.map.slotsPtr (s.map.slotsPtr + s.map.slotsSize * 4)) := by
    rw [hwords, ← Option.some.inj hhome, pageSpan, Spans.disjoint_iff]
    decide
  have hmem := hall n ps hrun hps _ hr 0 (by decide) hkern hstore
  obtain ⟨hnum, -⟩ := (page_mem_before_null_iff hT hpos hs hrun hr (by decide)).1 hmem
  have hfind := (findPhysicalAddrOfPage_eq_page twoRegions hr (by decide) (by decide) 0).2 ⟨rfl, hnum⟩
  exact absurd hfind (by decide)

end RiscvOs

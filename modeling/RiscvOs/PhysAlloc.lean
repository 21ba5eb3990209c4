import RiscvOs.BitmapSlots
import RiscvOs.PageNumbers
/-!
# The physical page allocator (`mem/phys_alloc.c`)

`init_phys_allocator` in two steps: the checks and the search for a place (`placeBitmap`), then the bitmap put there
and the pages marked.  What the functions print is left out.
-/
namespace RiscvOs

/-- `udiv_and_ceil` (`klibc/math_utils.c`). -/
def udivAndCeil (a b : Nat) : Nat := a / b + (if a % b ≠ 0 then 1 else 0)

def pagesToBorrow (totalBytes : Nat) : Nat := totalBytes / pageSize + (if totalBytes % pageSize ≠ 0 then 1 else 0)

def pmmBorrowPages (ndebug : Bool) (t : List RamDescriptor) (s : BitmapState 32) (pagePhysAddr totalBytes : Nat) :
    Except Stop (BitmapState 32) := do
  let ppn := physicAddrToPpn t pagePhysAddr
  debugAssert ndebug (ppn != -1) "ppn != -1"
  return bitmapMarkAsUsed s (toUint32 ppn) (pagesToBorrow totalBytes)

/-- The region has room for the bitmap from its start, up to the kernel if it is there. -/
def startFits (k : KernelImage) (bitmapSizeInBytes : Nat) (region : RamDescriptor) : Bool :=
  let regionEnd := wrap32 (region.physicaddr + region.spaceSize)
  let nextBoundary :=
    if k.kernelPhysicalStart ≥ region.physicaddr ∧ k.kernelPhysicalStart < regionEnd then k.kernelPhysicalStart
    else regionEnd
  decide (sub32 nextBoundary region.physicaddr ≥ bitmapSizeInBytes)

/-- There is room for the bitmap from the end of the kernel up to the end of the region. -/
def tailFits (k : KernelImage) (bitmapSizeInBytes : Nat) (region : RamDescriptor) : Bool :=
  let regionEnd := wrap32 (region.physicaddr + region.spaceSize)
  decide (k.kernelPhysicalEnd < regionEnd ∧ sub32 regionEnd k.kernelPhysicalEnd ≥ bitmapSizeInBytes)

/-- The search loop: what `slots_for_bitmap` is after it, `NULL` included. -/
def searchSlots (k : KernelImage) (bitmapSizeInBytes : Nat) : List RamDescriptor → Nat
  | []          => 0
  | region :: t =>
    if startFits k bitmapSizeInBytes region then region.physicaddr
    else if tailFits k bitmapSizeInBytes region then k.kernelPhysicalEnd
    else searchSlots k bitmapSizeInBytes t

structure Placement where
  slotsForBitmap : Nat
  bitmapSize : Nat
deriving DecidableEq, Repr

/-- The RAM the kernel leaves, as the guard computes it. -/
def unborrowed (t : List RamDescriptor) (k : KernelImage) : Int := toInt32 (sub32 (getTotalMem t) (getKernelSize k))

def bitmapSizeOf (t : List RamDescriptor) : Nat := udivAndCeil (getTotalMem t >>> pageOffsetBits) 32

/-- `init_phys_allocator` up to the second panic. -/
def placeBitmap (ndebug : Bool) (t : List RamDescriptor) (k : KernelImage) : Except Stop Placement := do
  debugAssert ndebug (t.length > 0) "total_memory_regions() > 0"
  debugAssert ndebug (k.kernelPhysicalStart < k.kernelPhysicalEnd) "_kernel_physical_start < _kernel_physical_end"
  debugAssert ndebug (getKernelSize k % pageSize == 0) "get_kernel_size() % PAGE_SIZE == 0"
  if unborrowed t k < (pageSize : Int) then
    throw (.panic (.notEnoughRam (unborrowed t k)))
  let bitmapSize := bitmapSizeOf t
  let slotsForBitmap := searchSlots k (wrap32 (bitmapSize * 4)) t
  if slotsForBitmap = 0 then
    throw (.panic .noContinuousSpace)
  return ⟨slotsForBitmap, bitmapSize⟩

/-- `init_phys_allocator`: `physical_bitmap_` is static, all zeroes until `bitmap_init`. -/
def initPhysAllocator (ndebug : Bool) (t : List RamDescriptor) (k : KernelImage) (mem : Mem 32) :
    Except Stop (BitmapState 32) := do
  let p ← placeBitmap ndebug t k
  let s ← bitmapInit ndebug ⟨⟨0, 0, 0, 0⟩, mem⟩ p.slotsForBitmap p.bitmapSize
  let s ← pmmBorrowPages ndebug t s k.kernelPhysicalStart (getKernelSize k)
  pmmBorrowPages ndebug t s p.slotsForBitmap p.bitmapSize

def pmmAllocatePage (t : List RamDescriptor) (s : BitmapState 32) : Nat × BitmapState 32 :=
  let r := bitmapAllocateSlot s
  if r.1 = -1 then (0, r.2) else (findPhysicalAddrOfPage t (toUint32 r.1), r.2)

/-- What `n` calls of `pmm_allocate_page` return, in order, and the state after them. -/
def pmmRun (t : List RamDescriptor) : Nat → BitmapState 32 → List Nat × BitmapState 32
  | 0, s     => ([], s)
  | n + 1, s =>
    let r := pmmAllocatePage t s
    (r.1 :: (pmmRun t n r.2).1, (pmmRun t n r.2).2)

/-! ## The checks -/

/-- The assertions before the search: compiled out, or true. -/
def AssertsPass (ndebug : Bool) (t : List RamDescriptor) (k : KernelImage) : Prop :=
  ndebug = true ∨
    (t.length > 0 ∧ k.kernelPhysicalStart < k.kernelPhysicalEnd ∧ getKernelSize k % pageSize = 0)

theorem placeBitmap_of_assertsPass {ndebug : Bool} {t : List RamDescriptor} {k : KernelImage}
    (h : AssertsPass ndebug t k) :
    placeBitmap ndebug t k =
      if unborrowed t k < (pageSize : Int) then .error (.panic (.notEnoughRam (unborrowed t k)))
      else if searchSlots k (wrap32 (bitmapSizeOf t * 4)) t = 0 then .error (.panic .noContinuousSpace)
      else .ok ⟨searchSlots k (wrap32 (bitmapSizeOf t * 4)) t, bitmapSizeOf t⟩ := by
  have h1 : (ndebug || decide (t.length > 0)) = true := by
    rcases h with rfl | ⟨h, -, -⟩ <;> simp_all
  have h2 : (ndebug || decide (k.kernelPhysicalStart < k.kernelPhysicalEnd)) = true := by
    rcases h with rfl | ⟨-, h, -⟩ <;> simp_all
  have h3 : (ndebug || getKernelSize k % pageSize == 0) = true := by
    rcases h with rfl | ⟨-, -, h⟩ <;> simp_all
  simp only [placeBitmap, debugAssert_bind, h1, h2, h3, if_true]
  rfl

theorem assertsPass_of_placeBitmap_ok {ndebug : Bool} {t : List RamDescriptor} {k : KernelImage} {p : Placement}
    (h : placeBitmap ndebug t k = .ok p) : AssertsPass ndebug t k := by
  simp only [placeBitmap, debugAssert_bind] at h
  split at h
  case isFalse => cases h
  rename_i h1
  split at h
  case isFalse => cases h
  rename_i h2
  split at h
  case isFalse => cases h
  rename_i h3
  cases ndebug with
  | true => exact Or.inl rfl
  | false => exact Or.inr ⟨by simpa using h1, by simpa using h2, by simpa using h3⟩

/-- **A placement is what the search found**, once the assertions and the RAM guard have let it through. -/
theorem placeBitmap_ok_iff {ndebug : Bool} {t : List RamDescriptor} {k : KernelImage} {p : Placement} :
    placeBitmap ndebug t k = .ok p ↔
      AssertsPass ndebug t k ∧ (pageSize : Int) ≤ unborrowed t k ∧
        searchSlots k (wrap32 (bitmapSizeOf t * 4)) t ≠ 0 ∧
        p = ⟨searchSlots k (wrap32 (bitmapSizeOf t * 4)) t, bitmapSizeOf t⟩ := by
  constructor
  · intro h
    have ha := assertsPass_of_placeBitmap_ok h
    rw [placeBitmap_of_assertsPass ha] at h
    split at h
    · cases h
    rename_i hu
    split at h
    · cases h
    rename_i hs
    exact ⟨ha, by omega, hs, (Except.ok.inj h).symm⟩
  · rintro ⟨ha, hu, hs, rfl⟩
    rw [placeBitmap_of_assertsPass ha, if_neg (by omega), if_neg hs]

theorem placeBitmap_panic_iff {ndebug : Bool} {t : List RamDescriptor} {k : KernelImage} (h : AssertsPass ndebug t k) :
    (∃ m, placeBitmap ndebug t k = .error (.panic m)) ↔
      unborrowed t k < (pageSize : Int) ∨ searchSlots k (wrap32 (bitmapSizeOf t * 4)) t = 0 := by
  rw [placeBitmap_of_assertsPass h]
  by_cases hu : unborrowed t k < (pageSize : Int)
  · rw [if_pos hu]
    exact iff_of_true ⟨_, rfl⟩ (Or.inl hu)
  · rw [if_neg hu]
    by_cases hs : searchSlots k (wrap32 (bitmapSizeOf t * 4)) t = 0
    · rw [if_pos hs]
      exact iff_of_true ⟨_, rfl⟩ (Or.inr hs)
    · rw [if_neg hs]
      exact iff_of_false (by simp) (not_or.2 ⟨hu, hs⟩)

/-! ## The marking -/

theorem pagesToBorrow_eq (n : Nat) : pagesToBorrow n = (n + 4095) / 4096 := by
  simp only [pagesToBorrow, pageSize]
  split <;> omega

/-- The slots a call of `pmm_borrow_pages` marks, as far as the bitmap has them. -/
def borrowedSlots (t : List RamDescriptor) (pagePhysAddr totalBytes : Nat) : Finset Nat :=
  let ppn := toUint32 (physicAddrToPpn t pagePhysAddr)
  Finset.Ico ppn (wrap32 (ppn + pagesToBorrow totalBytes))

theorem pmmBorrowPages_eq (ndebug : Bool) (t : List RamDescriptor) (s : BitmapState 32) (a bytes : Nat) :
    pmmBorrowPages ndebug t s a bytes =
      if (ndebug || physicAddrToPpn t a != -1) = true then
        .ok (bitmapMarkAsUsed s (toUint32 (physicAddrToPpn t a)) (pagesToBorrow bytes))
      else .error (.assertion "ppn != -1") := by
  rw [pmmBorrowPages, debugAssert_bind]
  rfl

theorem pmmBorrowPages_ok {ndebug : Bool} {t : List RamDescriptor} {s s' : BitmapState 32} {a bytes : Nat}
    (h : pmmBorrowPages ndebug t s a bytes = .ok s') :
    s'.map = s.map ∧ s'.used = s.used ∪ (Finset.range s.capacity).filter (fun q => q ∈ borrowedSlots t a bytes) := by
  rw [pmmBorrowPages_eq] at h
  split at h
  case isFalse => cases h
  cases h
  refine ⟨bitmapMarkAsUsed_map _ _ _, ?_⟩
  rw [used_bitmapMarkAsUsed]
  congr 1
  exact Finset.filter_congr (fun q _ => by simp only [borrowedSlots, Finset.mem_Ico])

/-- **A successful initialisation**: the bitmap is where the search put it, and the used slots are the two borrowed
spans. -/
theorem initPhysAllocator_ok {ndebug : Bool} {t : List RamDescriptor} {k : KernelImage} {mem : Mem 32}
    {s : BitmapState 32} (h : initPhysAllocator ndebug t k mem = .ok s) :
    ∃ p, placeBitmap ndebug t k = .ok p ∧ (p.bitmapSize ≠ 0 →
      s.map.slotsPtr = p.slotsForBitmap ∧ s.map.slotsSize = p.bitmapSize ∧
      ∀ q, q ∈ s.used ↔ q < p.bitmapSize * 32 ∧
        (q ∈ borrowedSlots t k.kernelPhysicalStart (getKernelSize k) ∨
          q ∈ borrowedSlots t p.slotsForBitmap p.bitmapSize)) := by
  cases hp : placeBitmap ndebug t k with
  | error e => simp [initPhysAllocator, hp, bind, Except.bind] at h
  | ok p =>
    refine ⟨p, rfl, fun hsize => ?_⟩
    have hne := (placeBitmap_ok_iff.1 hp).2.2
    have hslots : p.slotsForBitmap ≠ 0 := by rw [hne.2]; exact hne.1
    obtain ⟨s₀, hs₀, hmap, hused, -⟩ := bitmapInit_ok ndebug ⟨⟨0, 0, 0, 0⟩, mem⟩ hslots hsize
    simp only [initPhysAllocator, hp, hs₀, bind, Except.bind] at h
    split at h
    · cases h
    rename_i s₁ hs₁
    obtain ⟨hmap₁, hused₁⟩ := pmmBorrowPages_ok hs₁
    obtain ⟨hmap₂, hused₂⟩ := pmmBorrowPages_ok h
    have hm : s.map = ⟨p.bitmapSize, wrap32 (p.bitmapSize * 32), 0, p.slotsForBitmap⟩ := by rw [hmap₂, hmap₁, hmap]
    have hcap₀ : s₀.capacity = p.bitmapSize * 32 := by rw [BitmapState.capacity, hmap]
    have hcap₁ : s₁.capacity = p.bitmapSize * 32 := by rw [BitmapState.capacity, hmap₁, hmap]
    refine ⟨by rw [hm], by rw [hm], fun q => ?_⟩
    rw [hused₂, hused₁, hused, hcap₀, hcap₁]
    simp only [Finset.mem_union, Finset.mem_filter, Finset.mem_range, Finset.notMem_empty, false_or, ← and_or_left]

theorem initPhysAllocator_of_placed {ndebug : Bool} {t : List RamDescriptor} {k : KernelImage} {p : Placement}
    (mem : Mem 32) (hp : placeBitmap ndebug t k = .ok p)
    (hk : ndebug = true ∨ physicAddrToPpn t k.kernelPhysicalStart ≠ -1)
    (hs : ndebug = true ∨ physicAddrToPpn t p.slotsForBitmap ≠ -1) :
    ∃ s, initPhysAllocator ndebug t k mem = .ok s := by
  have hslots : p.slotsForBitmap ≠ 0 := by
    have hne := (placeBitmap_ok_iff.1 hp).2.2
    rw [hne.2]
    exact hne.1
  have hinit : ∃ s₀, bitmapInit ndebug ⟨⟨0, 0, 0, 0⟩, mem⟩ p.slotsForBitmap p.bitmapSize = .ok s₀ := by
    simp [bitmapInit, debugAssert_bind, hslots]
    split <;> exact ⟨_, rfl⟩
  obtain ⟨s₀, hs₀⟩ := hinit
  have hk' : (ndebug || physicAddrToPpn t k.kernelPhysicalStart != -1) = true := by
    rcases hk with rfl | hk <;> simp_all
  have hs' : (ndebug || physicAddrToPpn t p.slotsForBitmap != -1) = true := by
    rcases hs with rfl | hs <;> simp_all
  simp only [initPhysAllocator, hp, hs₀, bind, Except.bind, pmmBorrowPages_eq, hk', hs', if_true]
  exact ⟨_, rfl⟩

theorem initPhysAllocator_panic_iff {ndebug : Bool} {t : List RamDescriptor} {k : KernelImage} {mem : Mem 32}
    {m : Panic} :
    initPhysAllocator ndebug t k mem = .error (.panic m) ↔ placeBitmap ndebug t k = .error (.panic m) := by
  cases hp : placeBitmap ndebug t k with
  | error e => simp [initPhysAllocator, hp, bind, Except.bind]
  | ok p =>
    refine iff_of_false (fun h => ?_) (by simp)
    simp only [initPhysAllocator, hp, bind, Except.bind] at h
    split at h
    · rename_i hb
      rw [bitmapInit, debugAssert_bind] at hb
      split at hb
      · split at hb <;> cases hb
      · cases hb
        cases h
    · split at h
      · rename_i hb
        rw [pmmBorrowPages_eq] at hb
        split at hb
        · cases hb
        · cases hb
          cases h
      · rw [pmmBorrowPages_eq] at h
        split at h <;> cases h

end RiscvOs

import RiscvOs.Basic
import RiscvOs.Spans
/-!
# The table of RAM regions (`mem/memory.c`) and the kernel image

`ram_regions` and `ram_regions_index` are read through `total_memory_regions` and `pmm_get_region` only, always at an
index below `ram_regions_index`: the table is the list of the registered descriptors.
-/
namespace RiscvOs

abbrev pageOffsetBits : Nat := 12

/-- `PAGE_SIZE`.  The code is written with the name, what is said about it with the number. -/
abbrev pageSize : Nat := 4096

structure RamDescriptor where
  physicaddr : Nat
  spaceSize : Nat
deriving DecidableEq, Repr

def getTotalMem (t : List RamDescriptor) : Nat := t.foldl (fun counter r => wrap32 (counter + r.spaceSize)) 0

namespace RamDescriptor

/-- The first address past the region, as an integer. -/
def stop (r : RamDescriptor) : Nat := r.physicaddr + r.spaceSize

def pages (r : RamDescriptor) : Nat := r.spaceSize / 4096

def page (r : RamDescriptor) (q : Nat) : Nat := r.physicaddr + q * 4096

def span (r : RamDescriptor) : Set Nat := Set.Ico r.physicaddr r.stop

/-- A non-empty, page-aligned region of the 32-bit address space. -/
structure Regular (r : RamDescriptor) : Prop where
  nonempty : 0 < r.spaceSize
  aligned : 4096 ∣ r.physicaddr ∧ 4096 ∣ r.spaceSize
  size_lt : r.spaceSize < 2 ^ 32
  stop_le : r.stop ≤ 2 ^ 32

instance (r : RamDescriptor) : Decidable r.Regular :=
  decidable_of_iff
    (0 < r.spaceSize ∧ (4096 ∣ r.physicaddr ∧ 4096 ∣ r.spaceSize) ∧ r.spaceSize < 2 ^ 32 ∧ r.stop ≤ 2 ^ 32)
    ⟨fun ⟨h1, h2, h3, h4⟩ => ⟨h1, h2, h3, h4⟩, fun ⟨h1, h2, h3, h4⟩ => ⟨h1, h2, h3, h4⟩⟩

instance (a b : RamDescriptor) : Decidable (Disjoint a.span b.span) :=
  inferInstanceAs (Decidable (Disjoint (Set.Ico _ _) (Set.Ico _ _)))

theorem Regular.spaceSize_eq {r : RamDescriptor} (h : r.Regular) : r.spaceSize = r.pages * 4096 :=
  (Nat.div_mul_cancel h.aligned.2).symm

theorem Regular.pages_pos {r : RamDescriptor} (h : r.Regular) : 0 < r.pages := by
  have := h.spaceSize_eq
  have := h.nonempty
  omega

theorem Regular.stop_eq {r : RamDescriptor} (h : r.Regular) : r.stop = r.physicaddr + r.pages * 4096 := by
  rw [stop, h.spaceSize_eq]

theorem Regular.page_lt {r : RamDescriptor} (h : r.Regular) {q : Nat} (hq : q < r.pages) :
    r.page q + 4096 ≤ r.stop := by
  rw [h.stop_eq]
  simp only [page]
  omega

theorem Regular.page_dvd {r : RamDescriptor} (h : r.Regular) (q : Nat) : 4096 ∣ r.page q :=
  (Nat.dvd_add_iff_right h.aligned.1).1 (Nat.dvd_mul_left _ _)

end RamDescriptor

/-- A table of regular, pairwise disjoint regions, in any order. -/
structure RamTable where
  regions : List RamDescriptor
  regular : ∀ r ∈ regions, r.Regular
  disjoint : regions.Pairwise (fun a b => Disjoint a.span b.span)

namespace RamTable

/-- No region ends at `2 ^ 32`. -/
def BelowTop (T : RamTable) : Prop := ∀ r ∈ T.regions, r.stop < 2 ^ 32

instance (T : RamTable) : Decidable T.BelowTop :=
  inferInstanceAs (Decidable (∀ r ∈ T.regions, r.stop < 2 ^ 32))

def totalSize (t : List RamDescriptor) : Nat := (t.map (·.spaceSize)).sum

def totalPages (t : List RamDescriptor) : Nat := (t.map (·.pages)).sum

theorem totalSize_cons (r : RamDescriptor) (t : List RamDescriptor) :
    totalSize (r :: t) = r.spaceSize + totalSize t := by simp [totalSize]

theorem totalPages_cons (r : RamDescriptor) (t : List RamDescriptor) :
    totalPages (r :: t) = r.pages + totalPages t := by simp [totalPages]

theorem spaceSize_le {t : List RamDescriptor} {r : RamDescriptor} (hr : r ∈ t) : r.spaceSize ≤ totalSize t :=
  List.le_sum_of_mem (List.mem_map_of_mem hr)

theorem pages_le {t : List RamDescriptor} {r : RamDescriptor} (hr : r ∈ t) : r.pages ≤ totalPages t :=
  List.le_sum_of_mem (List.mem_map_of_mem hr)

theorem totalSize_eq : ∀ {t : List RamDescriptor}, (∀ r ∈ t, r.Regular) → totalSize t = totalPages t * 4096
  | [], _ => rfl
  | r :: t, h => by
    rw [totalSize_cons, totalPages_cons, totalSize_eq (fun x hx => h x (by simp [hx])),
      (h r (by simp)).spaceSize_eq]
    omega

theorem totalSize_le (T : RamTable) {bound : Nat} (hb : ∀ r ∈ T.regions, r.stop ≤ bound) :
    totalSize T.regions ≤ bound := by
  have h := @Spans.sum_le_of_disjoint _ RamDescriptor.physicaddr RamDescriptor.stop _ bound T.disjoint hb
  have he : (fun r : RamDescriptor => r.stop - r.physicaddr) = fun r => r.spaceSize := by
    funext r
    simp [RamDescriptor.stop]
  rw [he] at h
  exact h

theorem BelowTop.totalSize_lt {T : RamTable} (hT : T.BelowTop) : totalSize T.regions < 2 ^ 32 := by
  have hb : ∀ r ∈ T.regions, r.stop ≤ 2 ^ 32 - 1 := fun r hr => Nat.le_sub_one_of_lt (hT r hr)
  have := T.totalSize_le hb
  omega

theorem totalPages_le (T : RamTable) : totalPages T.regions ≤ 2 ^ 20 := by
  have h := T.totalSize_le (fun r hr => (T.regular r hr).stop_le)
  rw [totalSize_eq T.regular] at h
  omega

theorem foldl_wrap32 : ∀ (t : List RamDescriptor) (c : Nat), c < 2 ^ 32 →
    t.foldl (fun counter r => wrap32 (counter + r.spaceSize)) c = wrap32 (c + totalSize t)
  | [], c, hc => by simp [totalSize, wrap32_of_lt hc]
  | r :: t, c, _ => by
    rw [List.foldl_cons, foldl_wrap32 t _ (wrap32_lt _), totalSize_cons]
    unfold wrap32
    omega

theorem getTotalMem_eq (t : List RamDescriptor) : getTotalMem t = wrap32 (totalSize t) := by
  rw [getTotalMem, foldl_wrap32 t 0 (by decide), Nat.zero_add]

theorem BelowTop.getTotalMem_eq {T : RamTable} (hT : T.BelowTop) : getTotalMem T.regions = totalSize T.regions := by
  rw [RamTable.getTotalMem_eq, wrap32_of_lt hT.totalSize_lt]

theorem apart {t pre post : List RamDescriptor} {r : RamDescriptor}
    (hd : t.Pairwise (fun a b => Disjoint a.span b.span)) (ht : t = pre ++ r :: post) :
    ∀ x ∈ pre ++ post, Disjoint r.span x.span := by
  subst ht
  rw [List.pairwise_append, List.pairwise_cons] at hd
  intro x hx
  rcases List.mem_append.1 hx with h | h
  · exact (hd.2.2 x h r (by simp)).symm
  · exact hd.2.1.1 x h

end RamTable

/-- The two symbols the linker script puts around the kernel image, as 32-bit addresses. -/
structure KernelImage where
  kernelPhysicalStart : Nat
  kernelPhysicalEnd : Nat
  start_lt : kernelPhysicalStart < 2 ^ 32
  end_lt : kernelPhysicalEnd < 2 ^ 32

def getKernelSize (k : KernelImage) : Nat := sub32 k.kernelPhysicalEnd k.kernelPhysicalStart

namespace KernelImage

/-- The first address past the image, as an integer: `2 ^ 32` where the end symbol reads 0. -/
def stop (k : KernelImage) : Nat := k.kernelPhysicalStart + getKernelSize k

def span (k : KernelImage) : Set Nat := Set.Ico k.kernelPhysicalStart k.stop

/-- A non-empty, page-aligned image inside one region of the table. -/
structure InRam (k : KernelImage) (T : RamTable) : Prop where
  nonempty : 0 < getKernelSize k
  aligned : 4096 ∣ k.kernelPhysicalStart ∧ 4096 ∣ k.kernelPhysicalEnd
  inside : ∃ r ∈ T.regions, r.physicaddr ≤ k.kernelPhysicalStart ∧ k.stop ≤ r.stop

instance (k : KernelImage) (T : RamTable) : Decidable (k.InRam T) :=
  decidable_of_iff
    (0 < getKernelSize k ∧ (4096 ∣ k.kernelPhysicalStart ∧ 4096 ∣ k.kernelPhysicalEnd) ∧
      ∃ r ∈ T.regions, r.physicaddr ≤ k.kernelPhysicalStart ∧ k.stop ≤ r.stop)
    ⟨fun ⟨h1, h2, h3⟩ => ⟨h1, h2, h3⟩, fun ⟨h1, h2, h3⟩ => ⟨h1, h2, h3⟩⟩

theorem getKernelSize_lt (k : KernelImage) : getKernelSize k < 2 ^ 32 := Nat.mod_lt _ (by decide)

theorem stop_eq (k : KernelImage) (h : k.stop < 2 ^ 32) : k.stop = k.kernelPhysicalEnd := by
  have h1 := k.start_lt
  have h2 := k.end_lt
  simp only [stop, getKernelSize, sub32] at h ⊢
  omega

theorem end_eq (k : KernelImage) : k.kernelPhysicalEnd = wrap32 k.stop := by
  have h1 := k.start_lt
  have h2 := k.end_lt
  simp only [stop, getKernelSize, sub32, wrap32]
  omega

end KernelImage

end RiscvOs

import RiscvOs.Clint
import RiscvOs.Reservations
/-!
# The boot (`boot/kmain.c`)

`kmain` checks the tree, discovers the timer, detects the RAM and places the bitmap, and pages are handed out after it.
From the bytes of the tree to the pages: which pages of which memory nodes are ever returned
(`mem_pmmRun_after_kmain_iff`).
-/
namespace RiscvOs

inductive BootStop where
  | tree (panic : TreePanic)
  | clint (panic : ClintPanic)
  | memory (stop : Stop)
deriving DecidableEq, Repr

/-- What `kmain` leaves: `present_timer`, `ram_regions` and `physical_bitmap_`. -/
structure Booted where
  timer : RiscvTimer
  regions : List RamDescriptor
  bitmap : BitmapState 32

/-- `kmain` on hardware thread 0, up to supervisor mode.  What `detect_memory` returns is not looked at; `none` does not
return. -/
def kmain (ndebug : Bool) (t : Fdt) (lit : Literals) (k : KernelImage) (mem : Mem 32) :
    Option (Except BootStop Booted) :=
  match checkDeviceTree t with
  | none                => none
  | some (.error panic) => some (.error (.tree panic))
  | some (.ok _)        =>
    match initInterruptController t lit 0 with
    | .error panic => some (.error (.clint panic))
    | .ok timer    =>
      match detectMemory ndebug (t.libfdt lit) [] with
      | .error stop => some (.error (.memory stop))
      | .ok d       =>
        match initPhysAllocator ndebug d.table k mem with
        | .error stop => some (.error (.memory stop))
        | .ok s       => some (.ok ⟨timer, d.table, s⟩)

theorem kmain_ok {ndebug : Bool} {t : Fdt} {lit : Literals} {k : KernelImage} {mem : Mem 32} {b : Booted}
    (h : kmain ndebug t lit k mem = some (.ok b)) :
    checkDeviceTree t = some (.ok true) ∧ initInterruptController t lit 0 = .ok b.timer ∧
      (∃ d, detectMemory ndebug (t.libfdt lit) [] = .ok d ∧ d.table = b.regions) ∧
      initPhysAllocator ndebug b.regions k mem = .ok b.bitmap := by
  unfold kmain at h
  match hcheck : checkDeviceTree t with
  | none =>
    rw [hcheck] at h
    cases h
  | some (.error panic) =>
    rw [hcheck] at h
    cases h
  | some (.ok false) => exact absurd hcheck (checkDeviceTree_ne_false t)
  | some (.ok true) =>
    rw [hcheck] at h
    cases hclint : initInterruptController t lit 0 with
    | error panic =>
      rw [hclint] at h
      cases h
    | ok timer =>
      rw [hclint] at h
      cases hdetect : detectMemory ndebug (t.libfdt lit) [] with
      | error stop =>
        rw [hdetect] at h
        cases h
      | ok d =>
        rw [hdetect] at h
        dsimp only at h
        cases hinit : initPhysAllocator ndebug d.table k mem with
        | error stop =>
          rw [hinit] at h
          cases h
        | ok s =>
          rw [hinit] at h
          cases h
          exact ⟨rfl, rfl, ⟨d, rfl, rfl⟩, hinit⟩

/-! ## From the tree to the pages -/

/-- The memory nodes of the tree have a `reg` each, and their first entries, as they are read, are the regions of the
table. -/
structure Fdt.Describes (t : Fdt) (lit : Literals) (tags : List Tag) (reg : Tag → Reg) (T : RamTable) : Prop where
  regs : ∀ n ∈ t.memoryNodes lit tags, t.NodeReg lit tags n (reg n.1)
  count : (t.memoryNodes lit tags).length ≤ maxMemRegions
  regions : T.regions = (t.memoryNodes lit tags).map fun n => t.firstEntryRead (reg n.1)

theorem Fdt.Describes.detectMemory_eq {t : Fdt} {lit : Literals} {tags : List Tag} {fin : Tag} {reg : Tag → Reg}
    {T : RamTable} (hram : t.Describes lit tags reg T) (ndebug : Bool) (hlow : Probed t → t.Low)
    (hlit : lit.Hold t) (hchecked : checkDeviceTree t = some (.ok true))
    (hfirst : bigEndian t.block.bytes 0 = fdtBeginNode) (hcomplete : Complete t.block tags fin) :
    ∃ calls, detectMemory ndebug (t.libfdt lit) [] = .ok ⟨0, T.regions, calls⟩ := by
  obtain ⟨ht, root, inner, close, trail, fin', rfl, hroot⟩ := rootFirst_of_checked hlow hchecked hfirst hcomplete
  rw [hram.regions]
  exact detectMemory_of_rootFirst ndebug ht hroot hlit reg hram.regs hram.count

/-- **The pages that are handed out after the boot** are those of the first entries of the memory nodes, as they are
read, that no node before has a page of the same index as, and that are not reserved under that index. -/
theorem mem_pmmRun_after_kmain_iff (ndebug : Bool) (t : Fdt) (lit : Literals) (k : KernelImage) (mem : Mem 32)
    (hlow : Probed t → t.Low) (hlit : lit.Hold t) (hfirst : bigEndian t.block.bytes 0 = fdtBeginNode)
    {tags : List Tag} {fin : Tag} (hcomplete : Complete t.block tags fin) (reg : Tag → Reg) (T : RamTable)
    (hT : T.BelowTop) (hram : t.Describes lit tags reg T) (b : Booted) (h : kmain ndebug t lit k mem = some (.ok b))
    (p : Nat) (h0 : p ≠ 0) :
    (∃ n, p ∈ (pmmRun b.regions n b.bitmap).1) ↔
      ∃ n ∈ t.memoryNodes lit tags, ∃ q < (t.firstEntryRead (reg n.1)).pages,
        p = (t.firstEntryRead (reg n.1)).page q ∧ Numbered T (t.firstEntryRead (reg n.1)) q ∧
          q ∉ markedSlots T k := by
  obtain ⟨timer, regions, s⟩ := b
  obtain ⟨hchecked, -, ⟨d, hdetect, rfl⟩, hinit⟩ := kmain_ok h
  obtain ⟨calls, hrun⟩ := hram.detectMemory_eq ndebug hlow hlit hchecked hfirst hcomplete
  obtain rfl := Except.ok.inj (hdetect.symm.trans hrun)
  have hregion : ∀ n ∈ t.memoryNodes lit tags, t.firstEntryRead (reg n.1) ∈ T.regions := by
    intro n hn
    rw [hram.regions]
    exact List.mem_map_of_mem hn
  constructor
  · intro hp
    obtain ⟨-, -, -, hcap, -⟩ := initPhysAllocator_state hT hinit
    obtain ⟨q, -, hfind⟩ := (exists_mem_pmmRun T.regular hcap h0).1 hp
    obtain ⟨r, hr, hq, hpage⟩ := findPhysicalAddrOfPage_mem T.regular (hfind ▸ h0)
    rw [hfind] at hpage
    subst hpage
    have hfree := (exists_mem_pmmRun_page hT hinit hr hq h0).1 hp
    rw [hram.regions] at hr
    obtain ⟨n, hn, rfl⟩ := List.mem_map.1 hr
    exact ⟨n, hn, q, hq, rfl, hfree⟩
  · rintro ⟨n, hn, q, hq, rfl, hfree⟩
    exact (exists_mem_pmmRun_page hT hinit (hregion n hn) hq h0).2 hfree

/-- 1 MiB, as the 4 KiB of `memoryTree` are read, with the kernel in the first page. -/
def memoryTreeRam : RamTable where
  regions := [⟨0x80200000, 0x100000⟩]
  regular := by decide
  disjoint := by decide

def memoryTreeKernel : KernelImage := ⟨0x80200000, 0x80201000, by decide, by decide⟩

theorem memoryTree_describes :
    memoryTree.Describes memoryTreeLit memoryTreeTags (fun _ => memoryTreeReg) memoryTreeRam where
  regs := by
    rw [memoryTree_memoryNodes]
    exact List.forall_mem_singleton.2 memoryTree_reg
  count := by
    rw [memoryTree_memoryNodes]
    decide
  regions := by
    rw [memoryTree_memoryNodes]
    rfl

theorem memoryTree_boots : ∃ s, kmain false memoryTree memoryTreeLit memoryTreeKernel (fun _ => 0) =
    some (.ok ⟨⟨0x200bff8, 0x2004000⟩, memoryTreeRam.regions, s⟩) := by
  have hchecked : checkDeviceTree memoryTree = some (.ok true) := by decide +kernel
  obtain ⟨ht, root, inner, close, trail, fin', htags, hroot⟩ :=
    rootFirst_of_checked (fun _ => memoryTree_low) hchecked (by decide) memoryTree_complete
  have hnode := memoryTree_clintNode
  have hreg := memoryTree_clint
  rw [htags] at hnode hreg
  have hclint : initInterruptController memoryTree memoryTreeLit 0 = .ok ⟨0x200bff8, 0x2004000⟩ := by
    unfold initInterruptController
    rw [discoverClint_of_node ht hroot memoryTree_lit memoryTree_holdClint hnode hreg]
    rfl
  obtain ⟨calls, hdetect⟩ := memoryTree_describes.detectMemory_eq false (fun _ => memoryTree_low) memoryTree_lit
    hchecked (by decide) memoryTree_complete
  obtain ⟨s, hinit⟩ := initPhysAllocator_of_placed (fun _ => 0)
    (show placeBitmap false memoryTreeRam.regions memoryTreeKernel = .ok ⟨0x80201000, 8⟩ by decide)
    (Or.inr (by decide)) (Or.inr (by decide))
  refine ⟨s, ?_⟩
  unfold kmain
  rw [hchecked]
  dsimp only
  rw [hclint]
  dsimp only
  rw [hdetect]
  dsimp only
  rw [hinit]

/-- A page that the tree does not have. -/
theorem mem_pmmRun_after_kmain_iff_memoryTree :
    ∃ b, kmain false memoryTree memoryTreeLit memoryTreeKernel (fun _ => 0) = some (.ok b) ∧
      ((∃ n, 0x80202000 ∈ (pmmRun b.regions n b.bitmap).1) ↔
        ∃ n ∈ memoryTree.memoryNodes memoryTreeLit memoryTreeTags,
          ∃ q < (memoryTree.firstEntryRead memoryTreeReg).pages,
            0x80202000 = (memoryTree.firstEntryRead memoryTreeReg).page q ∧
              Numbered memoryTreeRam (memoryTree.firstEntryRead memoryTreeReg) q ∧
              q ∉ markedSlots memoryTreeRam memoryTreeKernel) := by
  obtain ⟨s, hs⟩ := memoryTree_boots
  exact ⟨_, hs, mem_pmmRun_after_kmain_iff false memoryTree memoryTreeLit memoryTreeKernel (fun _ => 0)
    (fun _ => memoryTree_low) memoryTree_lit (by decide) memoryTree_complete (fun _ => memoryTreeReg) memoryTreeRam
    (by decide) memoryTree_describes _ hs 0x80202000 (by decide)⟩

end RiscvOs

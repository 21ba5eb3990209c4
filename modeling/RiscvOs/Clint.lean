import RiscvOs.MemoryNodes
/-!
# Discovering the CLINT (`riscv/clint/clint.c`, `riscv/interrupts/interrupts.c`)

`discover_clint` takes the first compatible node, and every answer of `parse_reg` but `SUCCESS` for a failure: a node
with a second entry, for which `parse_reg` says `CALL_AGAIN`, makes the kernel panic (`initInterruptController_eq`).
-/
namespace RiscvOs

open FirstDifference (Agree)

def clintMtimecmpOffset : Nat := 0x4000

def clintMtimeOffset : Nat := 0xBFF8

/-- `discover_clint`, and `clint_addr` after it. -/
def discoverClint (t : Fdt) (lit : Literals) (clintAddr : Nat) : Int × Nat :=
  let clintNode := fdtNodeOffsetByCompatible t lit (-1) (lit "riscv,clint0")
  if clintNode > 0 then
    let p := parseReg (t.libfdt lit) clintNode ⟨clintAddr, 0⟩
    (if p.res ≠ 0 then -2 else 0, p.buf.physicaddr)
  else (-1, clintAddr)

/-- `struct riscv_timer`: the addresses of the two registers. -/
structure RiscvTimer where
  mtime : Nat
  mtimecmp : Nat
deriving DecidableEq, Repr

/-- `clint_init_timer`; `mtimecmp` is the hart's own. -/
def clintInitTimer (clintAddr mhartid : Nat) : RiscvTimer :=
  ⟨wrap32 (clintAddr + clintMtimeOffset), wrap32 (clintAddr + clintMtimecmpOffset + 8 * mhartid)⟩

inductive ClintPanic where
  | notValid
  | notFound
deriving DecidableEq, Repr

/-- `init_interrupt_controller`: `present_timer` after it; `clint_addr` is static, zero until `discover_clint`. -/
def initInterruptController (t : Fdt) (lit : Literals) (mhartid : Nat) : Except ClintPanic RiscvTimer :=
  let r := discoverClint t lit 0
  if r.1 = 0 then .ok (clintInitTimer r.2 mhartid)
  else if r.1 = -2 then .error .notValid
  else .error .notFound

/-! ## The node -/

/-- The names that `discover_clint` looks up. -/
structure Literals.HoldClint (lit : Literals) (t : Fdt) : Prop where
  compatible : t.Name (lit "compatible") 10
  clint : t.Name (lit "riscv,clint0") 12

open Classical in
/-- The first node that is compatible, with its own tags. -/
noncomputable def Fdt.clintNode (t : Fdt) (lit : Literals) (tags : List Tag) : Option (Tag × List Tag) :=
  (nodesWith tags).find? fun n => t.CompatibleWith lit (lit "riscv,clint0") 12 n.2

section

variable {t : Fdt} {lit : Literals} {root close fin : Tag} {inner trail : List Tag}

theorem fdtNodeOffset_clint (ht : Probed t) (h : t.RootFirst root inner close trail fin) (hlit : lit.HoldClint t) :
    fdtNodeOffsetByCompatible t lit (-1) (lit "riscv,clint0") =
      ((t.clintNode lit (root :: (inner ++ close :: trail))).map fun n => (n.1.off : Int)).getD fdtErrNotfound := by
  have htrail : ∀ tag ∈ trail, tag.kind ≠ .beginNode := by
    intro tag htag
    rw [h.nops tag htag]
    decide
  refine searchNodes_find ht h.complete (.all (by decide)) fun before n rest hsplit hkind => ?_
  have hbody : (root :: inner) ++ close :: trail = before ++ n :: rest := hsplit
  have hends := exists_end_of_close h.rooted.close htrail hbody hkind
  exact foundByCompatible_cases ht h.complete hsplit hkind hends hlit.compatible hlit.clint (by decide)

/-- A node inside another is not at the start of the structure block. -/
theorem Fdt.NodeReg.off_pos {tags : List Tag} {n : Tag × List Tag} {r : Reg} (h : Complete t.block tags fin)
    (hr : t.NodeReg lit tags n r) : 0 < n.1.off := by
  obtain ⟨outer, p, between, after, hsplit, -⟩ := hr.parent
  have hwalk := h.walk
  rw [hsplit, List.append_assoc] at hwalk
  obtain ⟨o, -, hrest⟩ := Walk.append_iff.1 hwalk
  obtain ⟨rfl, hreads, hafter⟩ := Walk.cons_iff.1 hrest
  have hbounds := hreads.bounds
  have hmem := hafter.mem_bounds (show n.1 ∈ (between ++ n.1 :: after) ++ [fin] by simp)
  omega

/-- Whatever the answer of `parse_reg`, `clint_addr` is the address of the first entry, as it is read. -/
theorem discoverClint_of_node (ht : Probed t) (h : t.RootFirst root inner close trail fin) (hlit : lit.Hold t)
    (hclint : lit.HoldClint t) {n : Tag × List Tag} {r : Reg}
    (hnode : t.clintNode lit (root :: (inner ++ close :: trail)) = some n)
    (hr : t.NodeReg lit (root :: (inner ++ close :: trail)) n r) (clintAddr : Nat) :
    discoverClint t lit clintAddr = (if r.entries = 1 then 0 else -2, t.numberRead r.ptr r.addressCells) := by
  have hpos := hr.off_pos h.complete
  have hmem : n ∈ nodesWith (root :: (inner ++ close :: trail)) := List.mem_of_find?_eq_some hnode
  have hreg := hr.hasReg ht h hlit hmem
  obtain ⟨hbuf, hres⟩ := hreg.parseReg_eq ⟨clintAddr, 0⟩
  rw [hreg.entry_eq hr.addressCells_pos] at hbuf
  unfold discoverClint
  rw [fdtNodeOffset_clint ht h hclint, hnode]
  dsimp only [Option.map_some, Option.getD_some]
  rw [if_pos (show (n.1.off : Int) > 0 by omega), hbuf, hres, Fdt.firstEntryRead]
  by_cases hone : r.entries = 1
  · rw [if_pos hone, if_pos hone, if_neg (show ¬ success ≠ 0 by decide)]
  · rw [if_neg hone, if_neg hone, if_pos (by decide)]

end

theorem memoryTree_holdClint : memoryTreeLit.HoldClint memoryTree where
  compatible := .of_chars (by decide) (by decide) (by decide)
  clint := .of_chars (by decide) (by decide) (by decide)

theorem memoryTree_clintNode : memoryTree.clintNode memoryTreeLit memoryTreeTags =
    some (⟨.beginNode, 64, 72⟩, [⟨.prop, 72, 100⟩, ⟨.prop, 100, 124⟩]) := by
  have hroot : ¬ memoryTree.CompatibleWith memoryTreeLit (memoryTreeLit "riscv,clint0") 12 [] := by
    rintro ⟨p, hp, -⟩
    cases hp
  have hnode : ¬ memoryTree.CompatibleWith memoryTreeLit (memoryTreeLit "riscv,clint0") 12
      [⟨.prop, 16, 36⟩, ⟨.prop, 36, 60⟩] := by
    have hnone : [(⟨.prop, 16, 36⟩ : Tag), ⟨.prop, 36, 60⟩].find?
        (memoryTree.isNamed (memoryTreeLit "compatible") 10) = none := by decide +kernel
    rintro ⟨p, hp, -⟩
    cases hnone.symm.trans hp
  have hclint : memoryTree.CompatibleWith memoryTreeLit (memoryTreeLit "riscv,clint0") 12
      [⟨.prop, 72, 100⟩, ⟨.prop, 100, 124⟩] :=
    ⟨⟨.prop, 72, 100⟩, by decide +kernel, 0, Or.inl rfl, by decide, by unfold AgreesAt Agree; decide⟩
  unfold Fdt.clintNode
  rw [memoryTree_nodesWith, List.find?_cons_of_neg (by simpa using hroot),
    List.find?_cons_of_neg (by simpa using hnode), List.find?_cons_of_pos (by simpa using hclint)]

def memoryTreeClint : Reg := ⟨0x10a8, 2, 1, 1⟩

theorem memoryTree_clint : memoryTree.NodeReg memoryTreeLit memoryTreeTags
    (⟨.beginNode, 64, 72⟩, [⟨.prop, 72, 100⟩, ⟨.prop, 100, 124⟩]) memoryTreeClint where
  prop := ⟨⟨.prop, 100, 124⟩, by decide +kernel, by decide, by decide⟩
  parent := ⟨[], ⟨.beginNode, 0, 8⟩, [⟨.beginNode, 8, 16⟩, ⟨.prop, 16, 36⟩, ⟨.prop, 36, 60⟩, ⟨.endNode, 60, 64⟩], _,
    rfl, rfl, rfl, rfl, rfl⟩
  addressCells_pos := by decide
  sizeCells_pos := by decide
  entries_pos := by decide
  nonzero := by decide

end RiscvOs

import RiscvOs.DetectMemory
import RiscvOs.CheckedTree
/-!
# The memory nodes of a tree (`mem/memory.c`, `libfdt/fdt_ro.c`)

The lookups of `detect_memory` are libfdt's own in the tree (`Fdt.libfdt`): it comes to the memory nodes in the order of
the tree (`enumerates_memoryNodes`), and registers the first entry of each, as it reads it
(`detectMemory_of_checked`): a field of one cell has its bytes the other way round.
-/
namespace RiscvOs

open FirstDifference (Agree)
open Nesting (Balanced)

theorem fdtErrInternal_neg : fdtErrInternal < 0 := by decide

/-- The lookups of libfdt in this tree; `prop_len` is `countof(memory_str)`. -/
def Fdt.libfdt (t : Fdt) (lit : Literals) : Libfdt where
  nodeOffsetByPropValue startoffset propname propval :=
    fdtNodeOffsetByPropValue t startoffset (lit propname) (lit propval) ((propval.length : Int) + 1)
  getprop nodeoffset name :=
    match fdtGetprop t nodeoffset (lit name) with
    | .error len     => .error (if h : len < 0 then ⟨len, h⟩ else ⟨fdtErrInternal, fdtErrInternal_neg⟩)
    | .ok (val, len) => .ok (val, len.toNat)
  parentOffset := fdtParentOffset t
  cell a := LittleEndian.load (t.mem.buffer a) 0

/-! ## Memory nodes -/

theorem split_nodesWith {n : Tag} {own : List Tag} {post : List (Tag × List Tag)} :
    ∀ {tags : List Tag} {pre : List (Tag × List Tag)}, nodesWith tags = pre ++ (n, own) :: post →
    ∃ passed after, tags = passed ++ n :: after ∧ nodesWith after = post ∧ n.kind = .beginNode
  | [], pre, h => by cases pre <;> cases h
  | tag :: tags, pre, h => by
    rw [nodesWith] at h
    by_cases hkind : tag.kind = .beginNode
    · rw [if_pos hkind] at h
      cases pre with
      | nil =>
        obtain ⟨heq, rfl⟩ := List.cons.inj h
        obtain ⟨rfl, -⟩ := Prod.mk.inj heq
        exact ⟨[], tags, rfl, rfl, hkind⟩
      | cons x pre =>
        obtain ⟨passed, after, rfl, hafter, hn⟩ := split_nodesWith (List.cons.inj h).2
        exact ⟨tag :: passed, after, rfl, hafter, hn⟩
    · rw [if_neg hkind] at h
      obtain ⟨passed, after, rfl, hafter, hn⟩ := split_nodesWith h
      exact ⟨tag :: passed, after, rfl, hafter, hn⟩

/-- A node with `device_type = "memory"`. -/
def Fdt.IsMemory (t : Fdt) (lit : Literals) (own : List Tag) : Prop :=
  t.HasValue (lit "device_type") 11 (lit "memory") 7 own

open Classical in
/-- The memory nodes among the tags, each with its own. -/
noncomputable def Fdt.memoryNodes (t : Fdt) (lit : Literals) (tags : List Tag) : List (Tag × List Tag) :=
  (nodesWith tags).filter fun n => t.IsMemory lit n.2

section

variable {t : Fdt} {lit : Literals} {tags : List Tag} {fin : Tag}

open Classical in
theorem nextMemoryNode_eq (ht : Probed t) (h : Complete t.block tags fin) (hname : t.Name (lit "device_type") 11)
    (hval : lit "memory" < 2 ^ 32) {after : List Tag} {startoffset : Int} (hstart : Before tags startoffset after) :
    nextMemoryNode (t.libfdt lit) startoffset =
      (((nodesWith after).find? fun n => t.IsMemory lit n.2).map fun n => (n.1.off : Int)).getD fdtErrNotfound :=
  searchNodes_find ht h hstart fun _ _ _ hsplit hkind =>
    foundByPropValue_cases ht h hsplit hkind hname (by decide) hval (by decide)

theorem Before.lt_off (h : Complete t.block tags fin) {after passed rest : List Tag} {n : Tag} {startoffset : Int}
    (hstart : Before tags startoffset after) (hsplit : after = passed ++ n :: rest) : startoffset < n.off := by
  cases hstart with
  | all hneg => omega
  | @behind before after m hm hkind =>
    have hwalk := h.walk
    rw [hm, List.append_assoc] at hwalk
    obtain ⟨o, -, hafter⟩ := Walk.append_iff.1 hwalk
    obtain ⟨rfl, hreads, hrest⟩ := Walk.cons_iff.1 hafter
    have hbounds := hreads.bounds
    have hmem := hrest.mem_bounds (show n ∈ after ++ [fin] by rw [hsplit]; simp)
    omega

/-- **`detect_memory` comes to the memory nodes in the order of the tree**, to each once. -/
theorem enumerates_memoryNodes (ht : Probed t) (h : Complete t.block tags fin)
    (hname : t.Name (lit "device_type") 11) (hval : lit "memory" < 2 ^ 32) :
    ∀ {after : List Tag} {startoffset : Int}, Before tags startoffset after →
      Enumerates (t.libfdt lit) startoffset ((t.memoryNodes lit after).map fun n => (n.1.off : Int)) := by
  classical
  intro after
  induction hN : after.length using Nat.strongRecOn generalizing after with
  | ind N ih =>
    intro startoffset hstart
    have hnext := nextMemoryNode_eq ht h hname hval hstart
    unfold Fdt.memoryNodes
    cases hfind : (nodesWith after).find? fun n => t.IsMemory lit n.2 with
    | none =>
      have hnil : (nodesWith after).filter (fun n => t.IsMemory lit n.2) = [] := by
        rw [List.filter_eq_nil_iff]
        exact List.find?_eq_none.1 hfind
      rw [hfind] at hnext
      rw [hnil]
      show nextMemoryNode (t.libfdt lit) startoffset < 0
      rw [hnext]
      exact fdtErrNotfound_neg
    | some n =>
      obtain ⟨n, own⟩ := n
      obtain ⟨hn, pre, post, hsplit, hpre⟩ := List.find?_eq_some_iff_append.1 hfind
      have hfilter : (nodesWith after).filter (fun n => t.IsMemory lit n.2) =
          (n, own) :: post.filter (fun n => t.IsMemory lit n.2) := by
        have hnone : pre.filter (fun n => t.IsMemory lit n.2) = [] := by
          rw [List.filter_eq_nil_iff]
          intro x hx
          simpa using hpre x hx
        rw [hsplit, List.filter_append, hnone, List.nil_append, List.filter_cons, if_pos hn]
      obtain ⟨passed, rest, hafter, hrest, hkind⟩ := split_nodesWith hsplit
      rw [hfind] at hnext
      rw [hfilter, List.map_cons]
      have hbehind : Before tags n.off rest := by
        obtain ⟨before, hbefore⟩ := hstart.split
        exact .behind (show tags = (before ++ passed) ++ n :: rest by rw [hbefore, hafter, List.append_assoc]) hkind
      have hshort : rest.length < N := by
        rw [← hN, hafter, List.length_append, List.length_cons]
        omega
      have hlater := ih rest.length hshort rfl hbehind
      rw [Fdt.memoryNodes, hrest] at hlater
      exact ⟨hnext, hstart.lt_off h hafter, hlater⟩

end

/-! ## The properties that `parse_reg` reads -/

/-- The names that `detect_memory` and `parse_reg` look up, and the value that they compare with. -/
structure Literals.Hold (lit : Literals) (t : Fdt) : Prop where
  deviceType : t.Name (lit "device_type") 11
  reg : t.Name (lit "reg") 3
  addressCells : t.Name (lit "#address-cells") 14
  sizeCells : t.Name (lit "#size-cells") 11
  memory : lit "memory" < 2 ^ 32

section

variable {t : Fdt} {lit : Literals} {tags before rest : List Tag} {n fin : Tag} {namelen : Nat} {name : String}

theorem libfdt_getprop_some (ht : Probed t) (h : Complete t.block tags fin) (hsplit : tags = before ++ n :: rest)
    (hkind : n.kind = .beginNode) (hname : t.Name (lit name) namelen) (hint : namelen < 2 ^ 31) {p : Tag}
    (hp : (rest.takeWhile Tag.isOwn).find? (t.isNamed (lit name) namelen) = some p) :
    (t.libfdt lit).getprop n.off name = .ok (t.valuePtr p.off, t.block.propLen p.off) := by
  have hget := fdtGetprop_eq ht h hsplit hkind hname hint
  rw [hp] at hget
  dsimp only [Fdt.libfdt]
  rw [hget]
  rfl

theorem libfdt_getprop_none (ht : Probed t) (h : Complete t.block tags fin) (hsplit : tags = before ++ n :: rest)
    (hkind : n.kind = .beginNode) (hname : t.Name (lit name) namelen) (hint : namelen < 2 ^ 31)
    (hp : (rest.takeWhile Tag.isOwn).find? (t.isNamed (lit name) namelen) = none)
    (hall : ¬ rest.all Tag.isOwn = true) :
    (t.libfdt lit).getprop n.off name = .error ⟨fdtErrNotfound, fdtErrNotfound_neg⟩ := by
  have hget := fdtGetprop_eq ht h hsplit hkind hname hint
  rw [hp] at hget
  dsimp only at hget
  rw [if_neg hall] at hget
  dsimp only [Fdt.libfdt]
  rw [hget]
  dsimp only
  rw [dif_pos fdtErrNotfound_neg]

/-- The cells that a node sets for its subnodes: its property of the name, or `default` without one. -/
def Fdt.SetsCells (t : Fdt) (name namelen default : Nat) (own : List Tag) (cells : Nat) : Prop :=
  match own.find? (t.isNamed name namelen) with
  | none   => cells = default
  | some p => t.block.propLen p.off = 4 ∧ bigEndian (t.mem.buffer (t.valuePtr p.off)) 0 = cells ∧ cells ≤ fdtMaxNcells

theorem fdtCells_of_sets (ht : Probed t) (h : Complete t.block tags fin) (hsplit : tags = before ++ n :: rest)
    (hkind : n.kind = .beginNode) (hname : t.Name (lit name) namelen) (hint : namelen < 2 ^ 31)
    (hall : ¬ rest.all Tag.isOwn = true) {default cells : Nat}
    (hcells : t.SetsCells (lit name) namelen default (rest.takeWhile Tag.isOwn) cells) :
    fdtCells (t.libfdt lit) n.off name = cells ∨
      fdtCells (t.libfdt lit) n.off name = fdtErrNotfound ∧ cells = default := by
  unfold Fdt.SetsCells at hcells
  unfold fdtCells
  cases hp : (rest.takeWhile Tag.isOwn).find? (t.isNamed (lit name) namelen) with
  | none =>
    rw [hp] at hcells
    rw [libfdt_getprop_none ht h hsplit hkind hname hint hp hall]
    exact Or.inr ⟨rfl, hcells⟩
  | some p =>
    rw [hp] at hcells
    obtain ⟨hlen, hval, hle⟩ := hcells
    rw [libfdt_getprop_some ht h hsplit hkind hname hint hp]
    dsimp only
    have hcell : (fdt32ToCpu ((t.libfdt lit).cell (t.valuePtr p.off))).toNat = cells :=
      (fdt32LdAligned_eq t.mem _).trans hval
    rw [if_neg (not_not.2 hlen), hcell, if_neg (Nat.not_lt.2 hle)]
    exact Or.inl rfl

theorem fdtAddressCells_of_sets (ht : Probed t) (h : Complete t.block tags fin) (hsplit : tags = before ++ n :: rest)
    (hkind : n.kind = .beginNode) (hname : t.Name (lit "#address-cells") 14) (hall : ¬ rest.all Tag.isOwn = true)
    {cells : Nat} (hpos : 0 < cells)
    (hcells : t.SetsCells (lit "#address-cells") 14 2 (rest.takeWhile Tag.isOwn) cells) :
    fdtAddressCells (t.libfdt lit) n.off = cells := by
  unfold fdtAddressCells
  rcases fdtCells_of_sets ht h hsplit hkind hname (by decide) hall hcells with hval | ⟨hval, rfl⟩
  · rw [hval]
    dsimp only
    rw [if_neg (by omega), if_neg (by unfold fdtErrNotfound; omega)]
  · rw [hval]
    rfl

theorem fdtSizeCells_of_sets (ht : Probed t) (h : Complete t.block tags fin) (hsplit : tags = before ++ n :: rest)
    (hkind : n.kind = .beginNode) (hname : t.Name (lit "#size-cells") 11) (hall : ¬ rest.all Tag.isOwn = true)
    {cells : Nat} (hcells : t.SetsCells (lit "#size-cells") 11 1 (rest.takeWhile Tag.isOwn) cells) :
    fdtSizeCells (t.libfdt lit) n.off = cells := by
  unfold fdtSizeCells
  rcases fdtCells_of_sets ht h hsplit hkind hname (by decide) hall hcells with hval | ⟨hval, rfl⟩
  · rw [hval]
    dsimp only
    rw [if_neg (by unfold fdtErrNotfound; omega)]
  · rw [hval]
    rfl

end

/-! ## The first entry -/

/-- The number in the `n` cells at `p`, most significant byte first. -/
def Fdt.number (t : Fdt) : (p n : Nat) → Nat
  | _, 0     => 0
  | p, n + 1 => bigEndian (t.mem.buffer p) 0 * 2 ^ (32 * n) + t.number (p + 4) n

/-- What is read there instead: of one cell, the number of its bytes the other way round; of more, the number, or
`2 ^ 32 - 1` for a larger one. -/
def Fdt.numberRead (t : Fdt) (p n : Nat) : Nat :=
  if n = 1 then bigEndian (fun i => t.mem.buffer p (3 - i)) 0 else min (t.number p n) (2 ^ 32 - 1)

/-- The number is read as it is: it fits a register and has more than one cell, or its one cell reads the same from
both ends. -/
def Fdt.ReadsRight (t : Fdt) (p n : Nat) : Prop :=
  if n = 1 then t.mem.buffer p 0 = t.mem.buffer p 3 ∧ t.mem.buffer p 1 = t.mem.buffer p 2 else t.number p n < 2 ^ 32

/-- The first entry of a `reg`, as it is in the tree. -/
def Fdt.firstEntry (t : Fdt) (r : Reg) : RamDescriptor :=
  ⟨t.number r.ptr r.addressCells, t.number (r.ptr + 4 * r.addressCells) r.sizeCells⟩

/-- The first entry of a `reg`, as it is read. -/
def Fdt.firstEntryRead (t : Fdt) (r : Reg) : RamDescriptor :=
  ⟨t.numberRead r.ptr r.addressCells, t.numberRead (r.ptr + 4 * r.addressCells) r.sizeCells⟩

theorem numberRead_eq_iff (t : Fdt) (p n : Nat) : t.numberRead p n = t.number p n ↔ t.ReadsRight p n := by
  unfold Fdt.numberRead Fdt.ReadsRight
  by_cases h1 : n = 1
  · subst h1
    have h0 := (t.mem.buffer p 0).isLt
    have h1 := (t.mem.buffer p 1).isLt
    have h2 := (t.mem.buffer p 2).isLt
    have h3 := (t.mem.buffer p 3).isLt
    rw [if_pos rfl, if_pos rfl, Fdt.number, Fdt.number, BitVec.toNat_eq, BitVec.toNat_eq]
    simp only [bigEndian, Nat.reduceSub, Nat.reduceAdd]
    omega
  · rw [if_neg h1, if_neg h1]
    omega

theorem firstEntryRead_eq_iff (t : Fdt) (r : Reg) : t.firstEntryRead r = t.firstEntry r ↔
    t.ReadsRight r.ptr r.addressCells ∧ t.ReadsRight (r.ptr + 4 * r.addressCells) r.sizeCells := by
  rw [← numberRead_eq_iff, ← numberRead_eq_iff, Fdt.firstEntryRead, Fdt.firstEntry, RamDescriptor.mk.injEq]

theorem cellValue_libfdt (t : Fdt) (lit : Literals) (p : Nat) :
    cellValue ((t.libfdt lit).cell p) = bigEndian (t.mem.buffer p) 0 := by
  rw [← fdt32LdAligned_eq, fdt32LdAligned, toNat_fdt32ToCpu]
  rfl

theorem encoded_libfdt (t : Fdt) (lit : Literals) : ∀ p n : Nat, encoded (t.libfdt lit) p n = t.number p n
  | _, 0     => rfl
  | p, n + 1 => by rw [encoded, Fdt.number, cellValue_libfdt, encoded_libfdt t lit (p + 4) n]

/-- **`fetch_lowest_` on the bytes of the tree.** -/
theorem fetchLowest_libfdt (t : Fdt) (lit : Literals) (p : Nat) {n : Nat} (hpos : 0 < n) (hle : n ≤ fdtMaxNcells) :
    (fetchLowest (t.libfdt lit) p n).1 = t.numberRead p n := by
  have hn : wrap32 (n * 4) = n * 4 := wrap32_of_lt (by unfold fdtMaxNcells at hle; omega)
  rw [fetchLowest, hn, Fdt.numberRead]
  by_cases h1 : n = 1
  · subst h1
    have hcell : ∀ k < 4, byteAt ((t.libfdt lit).cell p) k = (t.mem.buffer p k).toNat := fun k hk => byteAt_load _ hk
    rw [if_pos (by decide), if_pos rfl, toNat_eq_bytes, hcell 3 (by decide), hcell 2 (by decide), hcell 1 (by decide),
      hcell 0 (by decide)]
    rfl
  · obtain ⟨k, rfl⟩ : ∃ k, n = k + 1 := ⟨n - 1, by omega⟩
    rw [if_neg (by omega), if_neg h1, fetchLowestFrom_eq, encoded_libfdt, saturated]
    split <;> omega

theorem number_eq_zero_iff (t : Fdt) (lit : Literals) (p n : Nat) :
    t.number p n = 0 ↔ ∀ i < n, (t.libfdt lit).cell (p + 4 * i) = 0 := by
  rw [← encoded_libfdt t lit, encoded_eq_zero_iff]

theorem HasReg.entry_eq {t : Fdt} {lit : Literals} {node : Int} {r : Reg} (h : HasReg (t.libfdt lit) node r)
    (hpos : 0 < r.addressCells) : r.entry (t.libfdt lit) 0 = t.firstEntryRead r := by
  have haddress := fdtAddressCells_le (t.libfdt lit) ((t.libfdt lit).parentOffset node)
  have hsize := fdtSizeCells_le (t.libfdt lit) ((t.libfdt lit).parentOffset node)
  rw [h.address] at haddress
  rw [h.size] at hsize
  rw [Reg.entry, Fdt.firstEntryRead, Nat.mul_zero, Nat.add_zero,
    fetchLowest_libfdt t lit _ hpos (by exact_mod_cast haddress),
    fetchLowest_libfdt t lit _ h.sizeCells_pos (by exact_mod_cast hsize)]

/-- The node has this `reg`, in the cells that the node it is in sets. -/
structure Fdt.NodeReg (t : Fdt) (lit : Literals) (tags : List Tag) (n : Tag × List Tag) (r : Reg) : Prop where
  prop : ∃ p, n.2.find? (t.isNamed (lit "reg") 3) = some p ∧ t.valuePtr p.off = r.ptr ∧
    t.block.propLen p.off = 4 * (r.addressCells + r.sizeCells) * r.entries
  parent : ∃ outer p between after, tags = outer ++ p :: (between ++ n.1 :: after) ∧ p.kind = .beginNode ∧
    Balanced Tag.step between ∧
    t.SetsCells (lit "#address-cells") 14 2 ((between ++ n.1 :: after).takeWhile Tag.isOwn) r.addressCells ∧
    t.SetsCells (lit "#size-cells") 11 1 ((between ++ n.1 :: after).takeWhile Tag.isOwn) r.sizeCells
  addressCells_pos : 0 < r.addressCells
  sizeCells_pos : 0 < r.sizeCells
  entries_pos : 0 < r.entries
  nonzero : ∀ j < r.entries,
    t.number (r.ptr + 4 * (r.addressCells + r.sizeCells) * j + 4 * r.addressCells) r.sizeCells ≠ 0

section

variable {t : Fdt} {lit : Literals} {root close fin : Tag} {inner trail : List Tag}

theorem Fdt.NodeReg.hasReg {n : Tag × List Tag} {r : Reg} (ht : Probed t)
    (h : t.RootFirst root inner close trail fin) (hlit : lit.Hold t)
    (hmem : n ∈ nodesWith (root :: (inner ++ close :: trail)))
    (hr : t.NodeReg lit (root :: (inner ++ close :: trail)) n r) : HasReg (t.libfdt lit) n.1.off r := by
  obtain ⟨n, own⟩ := n
  obtain ⟨q, hq, hptr, hlen⟩ := hr.prop
  obtain ⟨outer, p, between, after, hsplit, hp, hbetween, haddress, hsizes⟩ := hr.parent
  obtain ⟨before, rest, hnsplit, hown, hn⟩ := mem_nodesWith hmem
  have hn : n.kind = .beginNode := hn
  have hparent := fdtParentOffset_of_split ht h hp hn hbetween hsplit
  -- the parent has a subnode, so its properties end before the block does
  have hall : ¬ (between ++ n :: after).all Tag.isOwn = true := by
    intro hall
    have hisOwn := List.all_eq_true.1 hall n (List.mem_append_right _ List.mem_cons_self)
    simp [Tag.isOwn, hn] at hisOwn
  constructor
  · have hget := libfdt_getprop_some ht h.complete hnsplit hn hlit.reg (by decide) (by rw [← hown]; exact hq)
    rw [hget, hptr, hlen]
  · show 0 ≤ fdtParentOffset t n.off
    rw [hparent]
    exact Int.natCast_nonneg _
  · show fdtAddressCells (t.libfdt lit) (fdtParentOffset t n.off) = r.addressCells
    rw [hparent]
    exact fdtAddressCells_of_sets ht h.complete hsplit hp hlit.addressCells hall hr.addressCells_pos haddress
  · show fdtSizeCells (t.libfdt lit) (fdtParentOffset t n.off) = r.sizeCells
    rw [hparent]
    exact fdtSizeCells_of_sets ht h.complete hsplit hp hlit.sizeCells hall hsizes
  · exact hr.sizeCells_pos
  · exact hr.entries_pos
  · intro j hj
    by_contra hzero
    push Not at hzero
    exact hr.nonzero j hj ((number_eq_zero_iff t lit _ _).2 hzero)

theorem detectMemory_of_rootFirst (ndebug : Bool) (ht : Probed t) (h : t.RootFirst root inner close trail fin)
    (hlit : lit.Hold t) (reg : Tag → Reg)
    (hreg : ∀ n ∈ t.memoryNodes lit (root :: (inner ++ close :: trail)),
      t.NodeReg lit (root :: (inner ++ close :: trail)) n (reg n.1))
    (hlen : (t.memoryNodes lit (root :: (inner ++ close :: trail))).length ≤ maxMemRegions) :
    ∃ calls, detectMemory ndebug (t.libfdt lit) [] =
      .ok ⟨0, (t.memoryNodes lit (root :: (inner ++ close :: trail))).map fun n => t.firstEntryRead (reg n.1),
        calls⟩ := by
  have hstart : Before (root :: (inner ++ close :: trail)) (-1) (root :: (inner ++ close :: trail)) :=
    .all (by decide)
  have hnodes := enumerates_memoryNodes ht h.complete hlit.deviceType hlit.memory hstart
  have hmem : ∀ n ∈ t.memoryNodes lit (root :: (inner ++ close :: trail)),
      n ∈ nodesWith (root :: (inner ++ close :: trail)) := fun n hn => (List.mem_filter.1 hn).1
  generalize t.memoryNodes lit (root :: (inner ++ close :: trail)) = nodes at hreg hlen hnodes hmem ⊢
  have hregs : ∀ x ∈ nodes.map (fun n => ((n.1.off : Int), reg n.1)), HasReg (t.libfdt lit) x.1 x.2 := by
    intro x hx
    obtain ⟨n, hn, rfl⟩ := List.mem_map.1 hx
    exact (hreg n hn).hasReg ht h hlit (hmem n hn)
  obtain ⟨calls, hrun⟩ := @detectFrom_of_hasReg ndebug (t.libfdt lit) (nodes.map fun n => ((n.1.off : Int), reg n.1))
    (-1) [] [] (Int.le_refl _) (by rw [List.map_map]; exact hnodes) hregs (by simpa using hlen)
  refine ⟨calls, hrun.trans ?_⟩
  have hentries : nodes.map ((fun x => x.2.entry (t.libfdt lit) 0) ∘ fun n => ((n.1.off : Int), reg n.1)) =
      nodes.map fun n => t.firstEntryRead (reg n.1) :=
    List.map_congr_left fun n hn =>
      ((hreg n hn).hasReg ht h hlit (hmem n hn)).entry_eq (hreg n hn).addressCells_pos
  rw [List.map_map, hentries]
  rfl

/-- A tree that `check_device_tree` lets through, beginning with its root, has these tags. -/
theorem rootFirst_of_checked (hlow : Probed t → t.Low) (hchecked : checkDeviceTree t = some (.ok true))
    (hfirst : bigEndian t.block.bytes 0 = fdtBeginNode) {tags : List Tag} (hcomplete : Complete t.block tags fin) :
    Probed t ∧ ∃ root inner close trail fin', tags = root :: (inner ++ close :: trail) ∧
      t.RootFirst root inner close trail fin' := by
  have hwf := ((checkDeviceTree_cases t hlow).1.1 hchecked).2
  obtain ⟨root, inner, close, trail, fin', h⟩ := hwf.exists_rootFirst hfirst
  exact ⟨hwf.toProbed, root, inner, close, trail, fin', hcomplete.unique h.complete, h⟩

/-- **On a tree that `check_device_tree` lets through, `detect_memory` registers the first entry of each memory node**,
in the order of the tree, as it reads it; that is the entry in the tree exactly when both its fields read right. -/
theorem detectMemory_of_checked (ndebug : Bool) (t : Fdt) (lit : Literals) (hlow : Probed t → t.Low)
    (hlit : lit.Hold t) (hchecked : checkDeviceTree t = some (.ok true))
    (hfirst : bigEndian t.block.bytes 0 = fdtBeginNode) {tags : List Tag} {fin : Tag}
    (hcomplete : Complete t.block tags fin) (reg : Tag → Reg)
    (hreg : ∀ n ∈ t.memoryNodes lit tags, t.NodeReg lit tags n (reg n.1))
    (hlen : (t.memoryNodes lit tags).length ≤ maxMemRegions) :
    (∃ calls, detectMemory ndebug (t.libfdt lit) [] =
      .ok ⟨0, (t.memoryNodes lit tags).map fun n => t.firstEntryRead (reg n.1), calls⟩) ∧
    ∀ n ∈ t.memoryNodes lit tags, t.firstEntryRead (reg n.1) = t.firstEntry (reg n.1) ↔
      t.ReadsRight (reg n.1).ptr (reg n.1).addressCells ∧
        t.ReadsRight ((reg n.1).ptr + 4 * (reg n.1).addressCells) (reg n.1).sizeCells := by
  obtain ⟨ht, root, inner, close, trail, fin', rfl, h⟩ := rootFirst_of_checked hlow hchecked hfirst hcomplete
  exact ⟨detectMemory_of_rootFirst ndebug ht h hlit reg hreg hlen, fun n _ => firstEntryRead_eq_iff t (reg n.1)⟩

end

/-! ## A tree with memory -/

/-- A root with two nodes, `m` of `device_type = "memory"` and `c` of `compatible = "riscv,clint0"`; behind the tree,
the strings that are looked up. -/
def memoryTreeBytes : List (BitVec 8) :=
  [0xd0, 0x0d, 0xfe, 0xed, 0, 0, 0, 219, 0, 0, 0, 56, 0, 0, 0, 192, 0, 0, 0, 40, 0, 0, 0, 17, 0, 0, 0, 16, 0, 0, 0, 0,
    0, 0, 0, 27, 0, 0, 0, 136,
    0, 0, 0, 0, 0, 0, 0, 0, 0, 0, 0, 0, 0, 0, 0, 0,
    0, 0, 0, 1, 0, 0, 0, 0,
    0, 0, 0, 1, 0x6d, 0, 0, 0,
    0, 0, 0, 3, 0, 0, 0, 7, 0, 0, 0, 0, 0x6d, 0x65, 0x6d, 0x6f, 0x72, 0x79, 0, 0,
    0, 0, 0, 3, 0, 0, 0, 12, 0, 0, 0, 12, 0, 0, 0, 0, 0x80, 0x20, 0, 0, 0, 0, 0x10, 0,
    0, 0, 0, 2,
    0, 0, 0, 1, 0x63, 0, 0, 0,
    0, 0, 0, 3, 0, 0, 0, 13, 0, 0, 0, 16,
    0x72, 0x69, 0x73, 0x63, 0x76, 0x2c, 0x63, 0x6c, 0x69, 0x6e, 0x74, 0x30, 0, 0, 0, 0,
    0, 0, 0, 3, 0, 0, 0, 12, 0, 0, 0, 12, 0, 0, 0, 0, 0x02, 0, 0, 0, 0, 0, 0x01, 0,
    0, 0, 0, 2, 0, 0, 0, 2, 0, 0, 0, 9,
    0x64, 0x65, 0x76, 0x69, 0x63, 0x65, 0x5f, 0x74, 0x79, 0x70, 0x65, 0, 0x72, 0x65, 0x67, 0,
    0x63, 0x6f, 0x6d, 0x70, 0x61, 0x74, 0x69, 0x62, 0x6c, 0x65, 0,
    0x6d, 0x65, 0x6d, 0x6f, 0x72, 0x79, 0,
    0x23, 0x61, 0x64, 0x64, 0x72, 0x65, 0x73, 0x73, 0x2d, 0x63, 0x65, 0x6c, 0x6c, 0x73, 0,
    0x23, 0x73, 0x69, 0x7a, 0x65, 0x2d, 0x63, 0x65, 0x6c, 0x6c, 0x73, 0,
    0x72, 0x69, 0x73, 0x63, 0x76, 0x2c, 0x63, 0x6c, 0x69, 0x6e, 0x74, 0x30, 0]

def memoryTree : Fdt := ⟨fun a => memoryTreeBytes.getD (a - 0x1000) 0, 0x1000, smallTree_ptr_lt⟩

def memoryTreeLit : Literals := fun s =>
  if s = "device_type" then 0x10c0
  else if s = "reg" then 0x10cc
  else if s = "compatible" then 0x10d0
  else if s = "memory" then 0x10db
  else if s = "#address-cells" then 0x10e2
  else if s = "#size-cells" then 0x10f1
  else 0x10fd

theorem memoryTree_low : memoryTree.Low := by
  unfold Fdt.Low
  decide

theorem memoryTree_lit : memoryTreeLit.Hold memoryTree where
  deviceType := .of_chars (by decide) (by decide) (by decide)
  reg := .of_chars (by decide) (by decide) (by decide)
  addressCells := .of_chars (by decide) (by decide) (by decide)
  sizeCells := .of_chars (by decide) (by decide) (by decide)
  memory := by decide

def memoryTreeTags : List Tag :=
  [⟨.beginNode, 0, 8⟩, ⟨.beginNode, 8, 16⟩, ⟨.prop, 16, 36⟩, ⟨.prop, 36, 60⟩, ⟨.endNode, 60, 64⟩,
    ⟨.beginNode, 64, 72⟩, ⟨.prop, 72, 100⟩, ⟨.prop, 100, 124⟩, ⟨.endNode, 124, 128⟩, ⟨.endNode, 128, 132⟩]

theorem memoryTree_complete : Complete memoryTree.block memoryTreeTags ⟨.fin, 132, 136⟩ where
  walk := by
    have hroot : memoryTree.block.Reads ⟨.beginNode, 0, 8⟩ :=
      ⟨by decide, 5, by decide, ⟨0, ⟨by decide, fun i _ => Nat.zero_le i⟩, rfl⟩, rfl⟩
    have hnode : memoryTree.block.Reads ⟨.beginNode, 8, 16⟩ := by
      refine ⟨by decide, 14, by decide, ⟨1, ⟨by decide, fun i hi => Nat.pos_of_ne_zero ?_⟩, rfl⟩, rfl⟩
      rintro rfl
      exact absurd (show memoryTree.block.bytes 12 = 0 from hi) (by decide)
    have htype : memoryTree.block.Reads ⟨.prop, 16, 36⟩ := ⟨by decide, 35, by decide,
      show 35 = 16 + 12 + memoryTree.block.propLen 16 + memoryTree.block.padding 16 by decide, rfl⟩
    have hreg : memoryTree.block.Reads ⟨.prop, 36, 60⟩ := ⟨by decide, 60, by decide,
      show 60 = 36 + 12 + memoryTree.block.propLen 36 + memoryTree.block.padding 36 by decide, rfl⟩
    have hclose : memoryTree.block.Reads ⟨.endNode, 60, 64⟩ := ⟨by decide, 64, by decide, rfl, rfl⟩
    have hclint : memoryTree.block.Reads ⟨.beginNode, 64, 72⟩ := by
      refine ⟨by decide, 70, by decide, ⟨1, ⟨by decide, fun i hi => Nat.pos_of_ne_zero ?_⟩, rfl⟩, rfl⟩
      rintro rfl
      exact absurd (show memoryTree.block.bytes 68 = 0 from hi) (by decide)
    have hcompatible : memoryTree.block.Reads ⟨.prop, 72, 100⟩ := ⟨by decide, 97, by decide,
      show 97 = 72 + 12 + memoryTree.block.propLen 72 + memoryTree.block.padding 72 by decide, rfl⟩
    have hclintReg : memoryTree.block.Reads ⟨.prop, 100, 124⟩ := ⟨by decide, 124, by decide,
      show 124 = 100 + 12 + memoryTree.block.propLen 100 + memoryTree.block.padding 100 by decide, rfl⟩
    have hclintClose : memoryTree.block.Reads ⟨.endNode, 124, 128⟩ := ⟨by decide, 128, by decide, rfl, rfl⟩
    have hrootClose : memoryTree.block.Reads ⟨.endNode, 128, 132⟩ := ⟨by decide, 132, by decide, rfl, rfl⟩
    have hfin : memoryTree.block.Reads ⟨.fin, 132, 136⟩ := ⟨by decide, 136, by decide, rfl, rfl⟩
    exact .cons hroot (.cons hnode (.cons htype (.cons hreg (.cons hclose (.cons hclint (.cons hcompatible
      (.cons hclintReg (.cons hclintClose (.cons hrootClose (.cons hfin (.nil 136)))))))))))
  last := rfl
  inside := by decide

theorem memoryTree_nodesWith : nodesWith memoryTreeTags =
    [(⟨.beginNode, 0, 8⟩, []), (⟨.beginNode, 8, 16⟩, [⟨.prop, 16, 36⟩, ⟨.prop, 36, 60⟩]),
      (⟨.beginNode, 64, 72⟩, [⟨.prop, 72, 100⟩, ⟨.prop, 100, 124⟩])] := by decide

theorem memoryTree_memoryNodes : memoryTree.memoryNodes memoryTreeLit memoryTreeTags =
    [(⟨.beginNode, 8, 16⟩, [⟨.prop, 16, 36⟩, ⟨.prop, 36, 60⟩])] := by
  have hroot : ¬ memoryTree.IsMemory memoryTreeLit [] := by
    rintro ⟨p, hp, -⟩
    cases hp
  have hnode : memoryTree.IsMemory memoryTreeLit [⟨.prop, 16, 36⟩, ⟨.prop, 36, 60⟩] :=
    ⟨⟨.prop, 16, 36⟩, by decide +kernel, by decide, by unfold Agree; decide⟩
  have hclint : ¬ memoryTree.IsMemory memoryTreeLit [⟨.prop, 72, 100⟩, ⟨.prop, 100, 124⟩] := by
    have hnone : [(⟨.prop, 72, 100⟩ : Tag), ⟨.prop, 100, 124⟩].find?
        (memoryTree.isNamed (memoryTreeLit "device_type") 11) = none := by decide +kernel
    rintro ⟨p, hp, -⟩
    cases hnone.symm.trans hp
  unfold Fdt.memoryNodes
  rw [memoryTree_nodesWith, List.filter_cons, if_neg (by simpa using hroot), List.filter_cons,
    if_pos (by simpa using hnode), List.filter_cons, if_neg (by simpa using hclint)]
  rfl

def memoryTreeReg : Reg := ⟨0x1068, 2, 1, 1⟩

theorem memoryTree_reg : memoryTree.NodeReg memoryTreeLit memoryTreeTags
    (⟨.beginNode, 8, 16⟩, [⟨.prop, 16, 36⟩, ⟨.prop, 36, 60⟩]) memoryTreeReg where
  prop := ⟨⟨.prop, 36, 60⟩, by decide +kernel, by decide, by decide⟩
  parent := ⟨[], ⟨.beginNode, 0, 8⟩, [], _, rfl, rfl, rfl, rfl, rfl⟩
  addressCells_pos := by decide
  sizeCells_pos := by decide
  entries_pos := by decide
  nonzero := by decide

/-- The address is decoded; the size, of one cell, is 4 KiB and is read as 1 MiB. -/
theorem detectMemory_of_checked_memoryTree :
    (∃ calls, detectMemory false (memoryTree.libfdt memoryTreeLit) [] = .ok ⟨0, [⟨0x80200000, 0x100000⟩], calls⟩) ∧
      memoryTree.firstEntry memoryTreeReg = ⟨0x80200000, 0x1000⟩ := by
  have hnodes := memoryTree_memoryNodes
  have hreg : ∀ n ∈ memoryTree.memoryNodes memoryTreeLit memoryTreeTags,
      memoryTree.NodeReg memoryTreeLit memoryTreeTags n memoryTreeReg := by
    rw [hnodes]
    exact List.forall_mem_singleton.2 memoryTree_reg
  have hlen : (memoryTree.memoryNodes memoryTreeLit memoryTreeTags).length ≤ maxMemRegions := by
    rw [hnodes]
    decide
  obtain ⟨⟨calls, hrun⟩, -⟩ := detectMemory_of_checked false memoryTree memoryTreeLit (fun _ => memoryTree_low)
    memoryTree_lit (by decide +kernel) (by decide) memoryTree_complete (fun _ => memoryTreeReg) hreg hlen
  rw [hnodes] at hrun
  exact ⟨⟨calls, hrun⟩, by decide⟩

end RiscvOs

import RiscvOs.DeviceTree
/-!
# The value of an array of cells, and the cells `parse_reg` reads

`fetch_lowest_` has two ways through: what fits a register is returned as it was loaded, anything wider is decoded.
`parse_reg` reads an address and a size before it looks at the length of the property.
-/
namespace RiscvOs

/-! ## `fetch_lowest_` -/

/-- The four bytes of the cell read the same backwards. -/
def ReadsBackwards (x : BitVec 32) : Prop := byteAt x 0 = byteAt x 3 ∧ byteAt x 1 = byteAt x 2

theorem toNat_eq_cellValue_iff (x : BitVec 32) : x.toNat = cellValue x ↔ ReadsBackwards x := by
  have h0 := byteAt_lt x 0
  have h1 := byteAt_lt x 1
  have h2 := byteAt_lt x 2
  have h3 := byteAt_lt x 3
  rw [toNat_eq_bytes x]
  unfold cellValue ReadsBackwards
  omega

/-- **Cells are decoded as they encode exactly when there are two or more**, or the single one reads the same both
ways. -/
theorem fetchLowest_decodes_iff (f : Libfdt) (p n : Nat) (hn : 0 < n) (hsize : n * 4 < 2 ^ 32) :
    (fetchLowest f p n).1 = (if encoded f p n < 2 ^ 32 then encoded f p n else 2 ^ 32 - 1) ↔
      1 < n ∨ ReadsBackwards (f.cell p) := by
  change (fetchLowest f p n).1 = saturated (encoded f p n) ↔ _
  rw [fetchLowest, wrap32_of_lt hsize]
  by_cases h1 : n = 1
  · subst h1
    rw [if_pos (by decide), encoded_one, saturated, if_pos (cellValue_lt _), toNat_eq_cellValue_iff]
    exact (or_iff_right (Nat.lt_irrefl 1)).symm
  · obtain ⟨k, rfl⟩ : ∃ k, n = k + 1 := ⟨n - 1, by omega⟩
    rw [if_neg (by omega)]
    exact iff_of_true (fetchLowestFrom_eq f k p) (Or.inl (by omega))

/-- A memory node whose `reg` is `len` bytes at `0x100`, under a root with one cell for an address. -/
def regTree (len : Nat) (sizeCells : BitVec 32) : Libfdt where
  nodeOffsetByPropValue startoffset _ _ := if startoffset < 8 then 8 else fdtErrNotfound
  getprop nodeoffset name :=
    if nodeoffset = 8 ∧ name = "reg" then .ok (0x100, len)
    else if nodeoffset = 0 ∧ name = "#address-cells" then .ok (0x200, 4)
    else if nodeoffset = 0 ∧ name = "#size-cells" then .ok (0x204, 4)
    else .error ⟨fdtErrNotfound, fdtErrNotfound_neg⟩
  parentOffset _ := 0
  cell a :=
    if a = 0x100 then 0x00000080#32
    else if a = 0x104 then 0x00100000#32
    else if a = 0x200 then 0x01000000#32
    else if a = 0x204 then sizeCells
    else 0

theorem fetchLowest_decodes_iff_regTree :
    (fetchLowest (regTree 8 0) 0xfc 2).1 =
        (if encoded (regTree 8 0) 0xfc 2 < 2 ^ 32 then encoded (regTree 8 0) 0xfc 2 else 2 ^ 32 - 1) ↔
      1 < 2 ∨ ReadsBackwards ((regTree 8 0).cell 0xfc) :=
  fetchLowest_decodes_iff (regTree 8 0) 0xfc 2 (by decide) (by decide)

/-- The bytes `80 00 00 00` are read as `0x80` from one cell, and as `0x80000000` after a cell of zeros. -/
theorem one_cell_not_decoded :
    encoded (regTree 8 0) 0x100 1 = 0x80000000 ∧ encoded (regTree 8 0) 0xfc 2 = 0x80000000 ∧
      (fetchLowest (regTree 8 0) 0x100 1).1 = 0x80 ∧ (fetchLowest (regTree 8 0) 0xfc 2).1 = 0x80000000 ∧
      (fetchLowest (regTree 8 0) 0x100 1).1 ≠
        if encoded (regTree 8 0) 0x100 1 < 2 ^ 32 then encoded (regTree 8 0) 0x100 1 else 2 ^ 32 - 1 := by
  decide

/-! ## `parse_reg` -/

theorem fetchLowestFrom_loads (f : Libfdt) : ∀ (n p : Nat),
    p ∈ (fetchLowestFrom f (n + 1) p).2 ∧ ∀ c ∈ (fetchLowestFrom f (n + 1) p).2, p ≤ c ∧ c + 4 ≤ p + 4 * (n + 1)
  | 0, p => by
    have hloads : (fetchLowestFrom f (0 + 1) p).2 = [p] := by
      rw [fetchLowestFrom]
      simp
    rw [hloads]
    refine ⟨List.mem_singleton_self p, fun c hc => ?_⟩
    obtain rfl := List.mem_singleton.1 hc
    omega
  | n + 1, p => by
    rw [fetchLowestFrom]
    split
    · refine ⟨List.mem_singleton_self p, fun c hc => ?_⟩
      obtain rfl := List.mem_singleton.1 hc
      omega
    · refine ⟨List.mem_cons_self, fun c hc => ?_⟩
      cases hc with
      | head => omega
      | tail _ hc =>
        have hrest := (fetchLowestFrom_loads f n (p + 4)).2 c hc
        omega

/-- `fetch_lowest_` loads the first cell also of an array of none, and no cell after the last. -/
theorem fetchLowest_loads (f : Libfdt) (p : Nat) {n : Nat} (hn : n ≤ fdtMaxNcells) :
    p ∈ (fetchLowest f p n).2 ∧ ∀ c ∈ (fetchLowest f p n).2, p ≤ c ∧ c + 4 ≤ p + 4 * max 1 n := by
  have hwrap : wrap32 (n * 4) = n * 4 := wrap32_of_lt (by unfold fdtMaxNcells at hn; omega)
  rw [fetchLowest, hwrap]
  by_cases h1 : n ≤ 1
  · rw [if_pos (by omega)]
    refine ⟨List.mem_singleton_self p, fun c hc => ?_⟩
    obtain rfl := List.mem_singleton.1 hc
    omega
  · obtain ⟨k, rfl⟩ : ∃ k, n = k + 1 := ⟨n - 1, by omega⟩
    rw [if_neg (by omega), Nat.max_eq_right (Nat.le_add_left 1 k)]
    exact fetchLowestFrom_loads f k p

section

variable (f : Libfdt) (node : Int) (buf : RamDescriptor)

/-- The bytes of one entry of the node's `reg`. -/
def entryBytes : Nat :=
  4 * ((fdtAddressCells f (f.parentOffset node)).toNat + (fdtSizeCells f (f.parentOffset node)).toNat)

/-- The same, with one cell also for a size of no cells. -/
def entryRoom : Nat :=
  4 * ((fdtAddressCells f (f.parentOffset node)).toNat + max 1 (fdtSizeCells f (f.parentOffset node)).toNat)

/-- **`parse_reg` stays inside `reg`**: what it loads lies in the property, and it succeeds on a whole entry only. -/
structure ParsesInside : Prop where
  inside : ∀ c ∈ (parseReg f node buf).loads, ∃ reg len, f.getprop node "reg" = .ok (reg, len) ∧
    reg ≤ c ∧ c + 4 ≤ reg + len
  whole : (parseReg f node buf).res = success ∨ (parseReg f node buf).res = callAgain →
    ∃ reg len, f.getprop node "reg" = .ok (reg, len) ∧ entryBytes f node ≤ len
  short : ∀ reg len, f.getprop node "reg" = .ok (reg, len) → len < entryBytes f node → (parseReg f node buf).res < 0

/-- The node has a `reg`, and a parent with a count of address cells: `parse_reg` gets to read. -/
def Reads (reg len : Nat) : Prop :=
  f.getprop node "reg" = .ok (reg, len) ∧ 0 ≤ f.parentOffset node ∧ 0 ≤ fdtAddressCells f (f.parentOffset node)

/-- A call that does not get to read loads nothing and fails. -/
theorem parseReg_of_not_reads (h : ∀ reg len, ¬ Reads f node reg len) :
    (parseReg f node buf).loads = [] ∧ (parseReg f node buf).res < 0 := by
  unfold parseReg
  cases hreg : f.getprop node "reg" with
  | error len => exact ⟨rfl, len.2⟩
  | ok r =>
    obtain ⟨reg, len⟩ := r
    simp only
    by_cases hparent : f.parentOffset node < 0
    · rw [if_pos hparent]
      exact ⟨rfl, hparent⟩
    · have haddress : fdtAddressCells f (f.parentOffset node) < 0 :=
        Int.not_le.1 fun ha => h reg len ⟨hreg, Int.not_lt.1 hparent, ha⟩
      rw [if_neg hparent, if_pos haddress]
      exact ⟨rfl, haddress⟩

/-- The loads of a call that reads, and its result: there is no length for which it fails. -/
theorem parseReg_of_reads {reg len : Nat} (h : Reads f node reg len)
    (hsize : 0 ≤ fdtSizeCells f (f.parentOffset node)) :
    let a := (fdtAddressCells f (f.parentOffset node)).toNat
    let s := (fdtSizeCells f (f.parentOffset node)).toNat
    (parseReg f node buf).loads = (fetchLowest f reg a).2 ++ (fetchLowest f (reg + 4 * a) s).2 ∧
      (parseReg f node buf).res = if len > 4 * (a + s) then callAgain else success := by
  obtain ⟨hreg, hparent, haddress⟩ := h
  simp only [parseReg, hreg, if_neg (Int.not_lt.2 hparent), if_neg (Int.not_lt.2 haddress),
    if_neg (Int.not_lt.2 hsize), and_self]

variable {f node buf}

theorem parseReg_inside {reg len : Nat} (h : Reads f node reg len)
    (hsize : 0 ≤ fdtSizeCells f (f.parentOffset node))
    (hlen : entryRoom f node ≤ len) :
    ∀ c ∈ (parseReg f node buf).loads, reg ≤ c ∧ c + 4 ≤ reg + len := by
  obtain ⟨hreg, hparent, haddress⟩ := h
  have hne := fdtAddressCells_ne_zero f (f.parentOffset node)
  have ha := fetchLowest_loads f reg (n := (fdtAddressCells f (f.parentOffset node)).toNat)
    (Int.toNat_le.2 (fdtAddressCells_le f _))
  have hs := fetchLowest_loads f (reg + 4 * (fdtAddressCells f (f.parentOffset node)).toNat)
    (n := (fdtSizeCells f (f.parentOffset node)).toNat) (Int.toNat_le.2 (fdtSizeCells_le f _))
  unfold entryRoom at hlen
  intro c hc
  rw [(parseReg_of_reads f node buf ⟨hreg, hparent, haddress⟩ hsize).1] at hc
  cases List.mem_append.1 hc with
  | inl hc =>
    have := ha.2 c hc
    omega
  | inr hc =>
    have := hs.2 c hc
    omega

/-- The node has one `reg`. -/
theorem of_exists_reg {P : Nat → Nat → Prop} {reg len : Nat} (h : Reads f node reg len)
    (hex : ∃ reg' len', f.getprop node "reg" = .ok (reg', len') ∧ P reg' len') : P reg len := by
  obtain ⟨reg', len', hreg, hP⟩ := hex
  rw [h.1] at hreg
  cases hreg
  exact hP

/-- Room for an entry, and for a cell after the address: what staying inside takes. -/
theorem room_of_parsesInside {reg len : Nat} (h : Reads f node reg len)
    (hsize : 0 ≤ fdtSizeCells f (f.parentOffset node)) (hin : ParsesInside f node buf) :
    entryRoom f node ≤ len := by
  have hrun := parseReg_of_reads f node buf h hsize
  have hfirst : reg + 4 * (fdtAddressCells f (f.parentOffset node)).toNat ∈ (parseReg f node buf).loads := by
    rw [hrun.1]
    exact List.mem_append_right _ (fetchLowest_loads f _ (Int.toNat_le.2 (fdtSizeCells_le f _))).1
  have hroom := (of_exists_reg h (hin.inside _ hfirst)).2
  have hwhole : entryBytes f node ≤ len := by
    have hres : (parseReg f node buf).res = success ∨ (parseReg f node buf).res = callAgain := by
      rw [hrun.2]
      split
      · exact Or.inr rfl
      · exact Or.inl rfl
    exact of_exists_reg (P := fun _ len => entryBytes f node ≤ len) h (hin.whole hres)
  unfold entryBytes at hwhole
  unfold entryRoom
  omega

end

/-- **`parse_reg` stays inside `reg` exactly when the property has room for an entry**, and for the cell that is read
as a size even when sizes have no cells. -/
theorem parseReg_inside_iff (f : Libfdt) (node : Int) (buf : RamDescriptor)
    (hsize : 0 ≤ f.parentOffset node → 0 ≤ fdtSizeCells f (f.parentOffset node)) :
    ParsesInside f node buf ↔
      ∀ reg len, f.getprop node "reg" = .ok (reg, len) → 0 ≤ f.parentOffset node →
        0 ≤ fdtAddressCells f (f.parentOffset node) → entryRoom f node ≤ len := by
  constructor
  · intro h reg len hreg hparent haddress
    exact room_of_parsesInside ⟨hreg, hparent, haddress⟩ (hsize hparent) h
  · intro h
    by_cases hreads : ∃ reg len, Reads f node reg len
    · obtain ⟨reg, len, hr⟩ := hreads
      have hlen := h reg len hr.1 hr.2.1 hr.2.2
      have hentry : entryBytes f node ≤ len := by
        unfold entryRoom at hlen
        unfold entryBytes
        omega
      refine ⟨fun c hc => ⟨reg, len, hr.1, parseReg_inside hr (hsize hr.2.1) hlen c hc⟩,
        fun _ => ⟨reg, len, hr.1, hentry⟩, fun reg' len' hreg' hshort => ?_⟩
      rw [hr.1] at hreg'
      cases hreg'
      exact absurd hentry (Nat.not_le.2 hshort)
    · have hnone := parseReg_of_not_reads f node buf fun reg len hr => hreads ⟨reg, len, hr⟩
      refine ⟨fun c hc => ?_, fun hres => ?_, fun _ _ _ _ => hnone.2⟩
      · rw [hnone.1] at hc
        cases hc
      · cases hres with
        | inl h0 =>
          rw [h0] at hnone
          exact absurd hnone.2 (by decide)
        | inr h4 =>
          rw [h4] at hnone
          exact absurd hnone.2 (by decide)

theorem parseReg_inside_iff_regTree :
    ParsesInside (regTree 8 0x01000000#32) 8 ⟨0, 0⟩ ↔
      ∀ reg len, (regTree 8 0x01000000#32).getprop 8 "reg" = .ok (reg, len) →
        0 ≤ (regTree 8 0x01000000#32).parentOffset 8 →
        0 ≤ fdtAddressCells (regTree 8 0x01000000#32) ((regTree 8 0x01000000#32).parentOffset 8) →
        entryRoom (regTree 8 0x01000000#32) 8 ≤ len :=
  parseReg_inside_iff (regTree 8 0x01000000#32) 8 ⟨0, 0⟩ (fun _ => by decide)

/-- With four bytes of `reg` the size is read behind the property, and the call succeeds, both when sizes have a cell
and when they have none. -/
theorem short_reg_parsed :
    parseReg (regTree 4 0x01000000#32) 8 ⟨0, 0⟩ = ⟨success, ⟨0x80, 0x100000⟩, [0x100, 0x104]⟩ ∧
      ¬ ParsesInside (regTree 4 0x01000000#32) 8 ⟨0, 0⟩ ∧
      parseReg (regTree 4 0#32) 8 ⟨0, 0⟩ = ⟨success, ⟨0x80, 0x100000⟩, [0x100, 0x104]⟩ ∧
      ¬ ParsesInside (regTree 4 0#32) 8 ⟨0, 0⟩ := by
  have hone : parseReg (regTree 4 0x01000000#32) 8 ⟨0, 0⟩ = ⟨success, ⟨0x80, 0x100000⟩, [0x100, 0x104]⟩ := rfl
  have hnone : parseReg (regTree 4 0#32) 8 ⟨0, 0⟩ = ⟨success, ⟨0x80, 0x100000⟩, [0x100, 0x104]⟩ := rfl
  have hreads : Reads (regTree 4 0x01000000#32) 8 0x100 4 := ⟨rfl, by decide, by decide⟩
  have hreads' : Reads (regTree 4 0#32) 8 0x100 4 := ⟨rfl, by decide, by decide⟩
  refine ⟨hone, fun h => ?_, hnone, fun h => ?_⟩
  · exact absurd (room_of_parsesInside hreads (by decide) h) (by decide)
  · exact absurd (room_of_parsesInside hreads' (by decide) h) (by decide)

end RiscvOs

import RiscvOs.Regions
/-!
# What the kernel reads of the device tree (`init_devices.c`, `libfdt/fdt_addresses.c`)

The lookups in the tree are a parameter; the decoding of what they return is the kernel's and libfdt's own.  A 32-bit
cell is big-endian in the tree and loaded little-endian; the loop of `fetch_lowest_` decodes it
(`fetchLowestFrom_eq`).
-/
namespace RiscvOs

/-- An error of libfdt, as the negative number its functions return. -/
abbrev FdtErr := { e : Int // e < 0 }

def fdtErrNotfound : Int := -1

theorem fdtErrNotfound_neg : fdtErrNotfound < 0 := by decide

def fdtErrBadncells : Int := -14

/-- The lookups of libfdt in one tree: a property is its address and its length in bytes. -/
structure Libfdt where
  nodeOffsetByPropValue : (startoffset : Int) → (propname propval : String) → Int
  getprop : (nodeoffset : Int) → (name : String) → Except FdtErr (Nat × Nat)
  parentOffset : (nodeoffset : Int) → Int
  /-- The cell at an address, as a 32-bit load gives it. -/
  cell : Nat → BitVec 32

/-! ## Cells -/

/-- `EXTRACT_BYTE`: byte `n` of a value in memory. -/
def extractByte (x : BitVec 32) (n : Nat) : BitVec 32 := (x >>> (8 * n)) &&& 0xff#32

def fdt32ToCpu (x : BitVec 32) : BitVec 32 :=
  extractByte x 0 <<< 24 ||| extractByte x 1 <<< 16 ||| extractByte x 2 <<< 8 ||| extractByte x 3

def fdtMaxNcells : Nat := 4

def fdtCells (f : Libfdt) (nodeoffset : Int) (name : String) : Int :=
  match f.getprop nodeoffset name with
  | .error len    => len
  | .ok (c, len)  =>
    if len ≠ 4 then fdtErrBadncells
    else
      let val := (fdt32ToCpu (f.cell c)).toNat
      if val > fdtMaxNcells then fdtErrBadncells else val

def fdtAddressCells (f : Libfdt) (nodeoffset : Int) : Int :=
  let val := fdtCells f nodeoffset "#address-cells"
  if val = 0 then fdtErrBadncells else if val = fdtErrNotfound then 2 else val

def fdtSizeCells (f : Libfdt) (nodeoffset : Int) : Int :=
  let val := fdtCells f nodeoffset "#size-cells"
  if val = fdtErrNotfound then 1 else val

/-- The loop of `fetch_lowest_`, and the cells it loads. -/
def fetchLowestFrom (f : Libfdt) : (cellsCount cellPtr : Nat) → Nat × List Nat
  | cellsCount + 2, cellPtr =>
    if f.cell cellPtr ≠ 0 then (2 ^ 32 - 1, [cellPtr])
    else
      let r := fetchLowestFrom f (cellsCount + 1) (cellPtr + 4)
      (r.1, cellPtr :: r.2)
  | _, cellPtr => ((fdt32ToCpu (f.cell cellPtr)).toNat, [cellPtr])

/-- `fetch_lowest_`; what fits a register is returned as it is loaded. -/
def fetchLowest (f : Libfdt) (cellPtr cellsCount : Nat) : Nat × List Nat :=
  if 4 ≥ wrap32 (cellsCount * 4) then ((f.cell cellPtr).toNat, [cellPtr])
  else fetchLowestFrom f cellsCount cellPtr

/-! ## `parse_reg` -/

def success : Int := 0

def callAgain : Int := 4

/-- The value of `parse_reg`, its two buffers after it, and the cells of `reg` it loaded. -/
structure ParsedReg where
  res : Int
  buf : RamDescriptor
  loads : List Nat

def parseReg (f : Libfdt) (node : Int) (buf : RamDescriptor) : ParsedReg :=
  match f.getprop node "reg" with
  | .error len     => ⟨len, buf, []⟩
  | .ok (reg, len) =>
    let parent := f.parentOffset node
    if parent < 0 then ⟨parent, buf, []⟩
    else
      let addressCells := fdtAddressCells f parent
      if addressCells < 0 then ⟨addressCells, buf, []⟩
      else
        let beginAddr := fetchLowest f reg addressCells.toNat
        let sizeCells := fdtSizeCells f parent
        if sizeCells < 0 then ⟨sizeCells, { buf with physicaddr := beginAddr.1 }, beginAddr.2⟩
        else
          let size := fetchLowest f (reg + 4 * addressCells.toNat) sizeCells.toNat
          ⟨if len > 4 * (addressCells.toNat + sizeCells.toNat) then callAgain else success,
            ⟨beginAddr.1, size.1⟩, beginAddr.2 ++ size.2⟩

/-! ## Big-endian values -/

/-- Byte `k` of a cell, in the order of memory. -/
def byteAt (x : BitVec 32) (k : Nat) : Nat := x.toNat / 256 ^ k % 256

def cellValue (x : BitVec 32) : Nat :=
  byteAt x 0 * 2 ^ 24 + byteAt x 1 * 2 ^ 16 + byteAt x 2 * 2 ^ 8 + byteAt x 3

/-- The integer that `n` cells encode, the most significant first. -/
def encoded (f : Libfdt) : (cellPtr n : Nat) → Nat
  | _, 0           => 0
  | cellPtr, n + 1 => cellValue (f.cell cellPtr) * 2 ^ (32 * n) + encoded f (cellPtr + 4) n

theorem toNat_eq_zero_iff (x : BitVec 32) : x.toNat = 0 ↔ x = 0 := by
  rw [BitVec.toNat_eq]
  rfl

theorem byteAt_lt (x : BitVec 32) (k : Nat) : byteAt x k < 256 := Nat.mod_lt _ (by decide)

theorem toNat_eq_bytes (x : BitVec 32) :
    x.toNat = byteAt x 3 * 2 ^ 24 + byteAt x 2 * 2 ^ 16 + byteAt x 1 * 2 ^ 8 + byteAt x 0 := by
  have hlt := x.isLt
  unfold byteAt
  omega

theorem cellValue_lt (x : BitVec 32) : cellValue x < 2 ^ 32 := by
  have h0 := byteAt_lt x 0
  have h1 := byteAt_lt x 1
  have h2 := byteAt_lt x 2
  have h3 := byteAt_lt x 3
  unfold cellValue
  omega

theorem cellValue_eq_zero_iff (x : BitVec 32) : cellValue x = 0 ↔ x = 0 := by
  rw [← toNat_eq_zero_iff, toNat_eq_bytes x]
  unfold cellValue
  omega

theorem toNat_extractByte (x : BitVec 32) (k : Nat) : (extractByte x k).toNat = byteAt x k := by
  have hmask : (0xff#32).toNat = 2 ^ 8 - 1 := rfl
  unfold extractByte byteAt
  rw [BitVec.toNat_and, BitVec.toNat_ushiftRight, hmask, Nat.and_two_pow_sub_one_eq_mod, Nat.shiftRight_eq_div_pow,
    Nat.pow_mul]

theorem toNat_extractByte_shift (x : BitVec 32) (k : Nat) {s : Nat} (hs : s ≤ 24) :
    (extractByte x k <<< s).toNat = byteAt x k * 2 ^ s := by
  have hlt : byteAt x k * 2 ^ s < 2 ^ 32 := by
    have hpow : 2 ^ s ≤ 2 ^ 24 := Nat.pow_le_pow_right (by decide) hs
    calc byteAt x k * 2 ^ s ≤ 255 * 2 ^ 24 := Nat.mul_le_mul (Nat.le_of_lt_succ (byteAt_lt x k)) hpow
      _ < 2 ^ 32 := by decide
  rw [BitVec.toNat_shiftLeft, toNat_extractByte, Nat.shiftLeft_eq, Nat.mod_eq_of_lt hlt]

/-- **`fdt32_to_cpu` reads a cell as big-endian.** -/
theorem toNat_fdt32ToCpu (x : BitVec 32) : (fdt32ToCpu x).toNat = cellValue x := by
  have h1 := byteAt_lt x 1
  have h2 := byteAt_lt x 2
  have h3 := byteAt_lt x 3
  have hor : ∀ {a b i : Nat}, b < 2 ^ i → a * 2 ^ i ||| b = a * 2 ^ i + b := by
    intro a b i hb
    rw [Nat.mul_comm, Nat.two_pow_add_eq_or_of_lt hb]
  unfold fdt32ToCpu cellValue
  rw [BitVec.toNat_or, BitVec.toNat_or, BitVec.toNat_or, toNat_extractByte_shift x 0 (by decide),
    toNat_extractByte_shift x 1 (by decide), toNat_extractByte_shift x 2 (by decide), toNat_extractByte,
    hor (show byteAt x 1 * 2 ^ 16 < 2 ^ 24 by omega),
    show byteAt x 0 * 2 ^ 24 + byteAt x 1 * 2 ^ 16 = (byteAt x 0 * 2 ^ 8 + byteAt x 1) * 2 ^ 16 by omega,
    hor (show byteAt x 2 * 2 ^ 8 < 2 ^ 16 by omega),
    show (byteAt x 0 * 2 ^ 8 + byteAt x 1) * 2 ^ 16 + byteAt x 2 * 2 ^ 8 =
      ((byteAt x 0 * 2 ^ 8 + byteAt x 1) * 2 ^ 8 + byteAt x 2) * 2 ^ 8 by omega,
    hor (show byteAt x 3 < 2 ^ 8 from h3)]

theorem encoded_one (f : Libfdt) (p : Nat) : encoded f p 1 = cellValue (f.cell p) := by
  rw [encoded, encoded, Nat.mul_zero, Nat.pow_zero, Nat.mul_one, Nat.add_zero]

/-! ## The value of `fetch_lowest_` -/

/-- What the comment on `fetch_lowest_` promises of a value: itself if it fits a register, `UINTPTR_MAX` otherwise. -/
def saturated (v : Nat) : Nat := if v < 2 ^ 32 then v else 2 ^ 32 - 1

theorem fetchLowestFrom_eq (f : Libfdt) : ∀ (n p : Nat),
    (fetchLowestFrom f (n + 1) p).1 = saturated (encoded f p (n + 1))
  | 0, p => by
    have hval : (fetchLowestFrom f (0 + 1) p).1 = cellValue (f.cell p) := by
      rw [← toNat_fdt32ToCpu, fetchLowestFrom]
      simp
    rw [hval, encoded_one, saturated, if_pos (cellValue_lt _)]
  | n + 1, p => by
    rw [fetchLowestFrom, encoded]
    by_cases hp : f.cell p = 0
    · have hzero : cellValue (f.cell p) = 0 := (cellValue_eq_zero_iff _).2 hp
      rw [if_neg (not_not.2 hp), hzero, Nat.zero_mul, Nat.zero_add]
      exact fetchLowestFrom_eq f n (p + 4)
    · have hpos : 0 < cellValue (f.cell p) := Nat.pos_of_ne_zero fun h => hp ((cellValue_eq_zero_iff _).1 h)
      have hbig : 2 ^ 32 ≤ cellValue (f.cell p) * 2 ^ (32 * (n + 1)) + encoded f (p + 4) (n + 1) :=
        calc 2 ^ 32 ≤ 2 ^ (32 * (n + 1)) := Nat.pow_le_pow_right (by decide) (by omega)
          _ ≤ cellValue (f.cell p) * 2 ^ (32 * (n + 1)) := Nat.le_mul_of_pos_left _ hpos
          _ ≤ _ := Nat.le_add_right _ _
      rw [if_pos hp, saturated, if_neg (Nat.not_lt.2 hbig)]

theorem encoded_eq_zero_iff (f : Libfdt) : ∀ (n p : Nat), encoded f p n = 0 ↔ ∀ i < n, f.cell (p + 4 * i) = 0
  | 0, _ => by simp [encoded]
  | n + 1, p => by
    have hstep : ∀ i, p + 4 + 4 * i = p + 4 * (i + 1) := by
      intro i
      omega
    have hpow : 2 ^ (32 * n) ≠ 0 := Nat.pos_iff_ne_zero.1 (Nat.two_pow_pos _)
    rw [encoded, Nat.add_eq_zero_iff, Nat.mul_eq_zero, or_iff_left hpow, cellValue_eq_zero_iff,
      encoded_eq_zero_iff f n (p + 4)]
    simp only [hstep]
    constructor
    · rintro ⟨h0, h⟩ i hi
      cases i with
      | zero => exact h0
      | succ i => exact h i (Nat.lt_of_succ_lt_succ hi)
    · intro h
      exact ⟨h 0 (Nat.succ_pos n), fun i hi => h (i + 1) (Nat.succ_lt_succ hi)⟩

theorem saturated_eq_zero_iff (v : Nat) : saturated v = 0 ↔ v = 0 := by
  unfold saturated
  split <;> omega

theorem fetchLowest_eq_zero_iff (f : Libfdt) (p : Nat) {n : Nat} (hpos : 0 < n) (hle : n ≤ fdtMaxNcells) :
    (fetchLowest f p n).1 = 0 ↔ ∀ i < n, f.cell (p + 4 * i) = 0 := by
  have hn : wrap32 (n * 4) = n * 4 := wrap32_of_lt (by unfold fdtMaxNcells at hle; omega)
  rw [fetchLowest, hn]
  by_cases h1 : n = 1
  · subst h1
    rw [if_pos (by decide), toNat_eq_zero_iff]
    simp
  · obtain ⟨k, rfl⟩ : ∃ k, n = k + 1 := ⟨n - 1, by omega⟩
    rw [if_neg (by omega), fetchLowestFrom_eq, saturated_eq_zero_iff, encoded_eq_zero_iff]

/-! ## Counts of cells -/

theorem fdtCells_le (f : Libfdt) (node : Int) (name : String) : fdtCells f node name ≤ fdtMaxNcells := by
  unfold fdtCells
  split
  case h_1 len _ =>
    have := len.2
    simp only [fdtMaxNcells]
    omega
  case h_2 =>
    split
    · decide
    · simp only
      split
      · decide
      · omega

theorem fdtSizeCells_le (f : Libfdt) (node : Int) : fdtSizeCells f node ≤ fdtMaxNcells := by
  have h := fdtCells_le f node "#size-cells"
  unfold fdtSizeCells
  simp only
  split
  · decide
  · exact h

theorem fdtAddressCells_le (f : Libfdt) (node : Int) : fdtAddressCells f node ≤ fdtMaxNcells := by
  have h := fdtCells_le f node "#address-cells"
  unfold fdtAddressCells
  simp only
  split
  · decide
  · split
    · decide
    · exact h

theorem fdtAddressCells_ne_zero (f : Libfdt) (node : Int) : fdtAddressCells f node ≠ 0 := by
  unfold fdtAddressCells
  simp only
  split
  · decide
  · split
    · decide
    · assumption

/-! ## What `parse_reg` writes -/

/-- A call that does not fail writes both buffers. -/
theorem parseReg_buf (f : Libfdt) (node : Int) (b b' : RamDescriptor) (h : 0 ≤ (parseReg f node b).res) :
    (parseReg f node b').buf = (parseReg f node b).buf := by
  unfold parseReg at h ⊢
  split at h
  case h_1 len _ => exact absurd h (Int.not_le.2 len.2)
  case h_2 =>
    simp only at h ⊢
    split at h
    case isTrue hparent => exact absurd h (Int.not_le.2 hparent)
    rename_i hparent
    split at h
    case isTrue haddress => exact absurd h (Int.not_le.2 haddress)
    rename_i haddress
    split at h
    case isTrue hsize => exact absurd h (Int.not_le.2 hsize)
    rename_i hsize
    simp only [if_neg hparent, if_neg haddress, if_neg hsize]

/-- A `reg` property: its address, and its entries of so many cells each. -/
structure Reg where
  ptr : Nat
  addressCells : Nat
  sizeCells : Nat
  entries : Nat

/-- Entry `j`, as `fetch_lowest_` decodes it. -/
def Reg.entry (f : Libfdt) (r : Reg) (j : Nat) : RamDescriptor :=
  let p := r.ptr + 4 * (r.addressCells + r.sizeCells) * j
  ⟨(fetchLowest f p r.addressCells).1, (fetchLowest f (p + 4 * r.addressCells) r.sizeCells).1⟩

/-- The node has this `reg`: one or more whole entries, none of size zero. -/
structure HasReg (f : Libfdt) (node : Int) (r : Reg) : Prop where
  prop : f.getprop node "reg" = .ok (r.ptr, 4 * (r.addressCells + r.sizeCells) * r.entries)
  parent : 0 ≤ f.parentOffset node
  address : fdtAddressCells f (f.parentOffset node) = r.addressCells
  size : fdtSizeCells f (f.parentOffset node) = r.sizeCells
  sizeCells_pos : 0 < r.sizeCells
  entries_pos : 0 < r.entries
  nonzero : ∀ j < r.entries, ∃ i < r.sizeCells,
    f.cell (r.ptr + 4 * (r.addressCells + r.sizeCells) * j + 4 * r.addressCells + 4 * i) ≠ 0

namespace HasReg

variable {f : Libfdt} {node : Int} {r : Reg}

/-- **`parse_reg` writes the first entry**, and says whether there are more. -/
theorem parseReg_eq (h : HasReg f node r) (b : RamDescriptor) :
    (parseReg f node b).buf = r.entry f 0 ∧
      (parseReg f node b).res = if r.entries = 1 then success else callAgain := by
  have hpos := h.entries_pos
  have hsize := h.sizeCells_pos
  have hmore : 4 * (r.addressCells + r.sizeCells) * r.entries > 4 * (r.addressCells + r.sizeCells) ↔
      ¬ r.entries = 1 := by
    have hcells : 0 < 4 * (r.addressCells + r.sizeCells) := by omega
    rw [gt_iff_lt, Nat.lt_mul_iff_one_lt_right hcells]
    omega
  simp only [parseReg, h.prop, h.address, h.size, if_neg (Int.not_lt.2 h.parent),
    if_neg (Int.not_lt.2 (Int.natCast_nonneg _)), Int.toNat_natCast, hmore, Reg.entry, Nat.mul_zero, Nat.add_zero,
    true_and]
  by_cases h1 : r.entries = 1 <;> simp [h1]

theorem res_ne (h : HasReg f node r) (b : RamDescriptor) : (parseReg f node b).res ≠ -1 := by
  rw [(h.parseReg_eq b).2]
  split <;> decide

theorem entry_spaceSize_ne (h : HasReg f node r) {j : Nat} (hj : j < r.entries) : (r.entry f j).spaceSize ≠ 0 := by
  obtain ⟨i, hi, hcell⟩ := h.nonzero j hj
  have hle : r.sizeCells ≤ fdtMaxNcells := by
    have := fdtSizeCells_le f (f.parentOffset node)
    rw [h.size] at this
    exact_mod_cast this
  intro hzero
  exact hcell ((fetchLowest_eq_zero_iff f _ h.sizeCells_pos hle).1 hzero i hi)

end HasReg

end RiscvOs

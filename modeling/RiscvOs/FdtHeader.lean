import RiscvOs.DeviceTree
import RiscvOs.LittleEndian
import RiscvOs.StringLists
/-!
# The header of a flattened device tree (`libfdt/fdt.c`, `libfdt/libfdt.h`)

`FDT_ASSUME_MASK` is 0: no check is compiled out.  The fields of the header are read byte by byte (`fdt32_ld`), the
words of the structure block with one load (`fdt32_ld_`); both are big-endian (`fdt32Ld_eq`, `fdt32LdAligned_eq`).
`fdtCheckHeader_eq_zero_iff` says what the check of the header lets through.
-/
namespace RiscvOs

/-- A device tree where it lies: the pointer `fdt`, and the memory around it. -/
structure Fdt where
  mem : Bytes
  ptr : Nat
  ptr_lt : ptr < 2 ^ 32

def fdtErrBadoffset : Int := -4

def fdtErrBadstate : Int := -7

def fdtErrTruncated : Int := -8

def fdtErrBadmagic : Int := -9

def fdtErrBadversion : Int := -10

def fdtErrBadstructure : Int := -11

def fdtErrInternal : Int := -13

def fdtErrAlignment : Int := -19

/-! ## Words of the tree -/

/-- The word at `i`, most significant byte first. -/
def bigEndian (s : Nat → BitVec 8) (i : Nat) : Nat :=
  (s i).toNat * 2 ^ 24 + (s (i + 1)).toNat * 2 ^ 16 + (s (i + 2)).toNat * 2 ^ 8 + (s (i + 3)).toNat

/-- `fdt32_ld`. -/
def fdt32Ld (m : Bytes) (p : Nat) : Nat :=
  let bp := fun i => (m.buffer p i).setWidth 32
  (bp 0 <<< 24 ||| bp 1 <<< 16 ||| bp 2 <<< 8 ||| bp 3).toNat

/-- `fdt32_ld_`, and `fdt32_to_cpu(*p)`. -/
def fdt32LdAligned (m : Bytes) (p : Nat) : Nat := (fdt32ToCpu (LittleEndian.load (m.buffer p) 0)).toNat

theorem bigEndian_lt (s : Nat → BitVec 8) (i : Nat) : bigEndian s i < 2 ^ 32 := by
  have h0 := (s i).isLt
  have h1 := (s (i + 1)).isLt
  have h2 := (s (i + 2)).isLt
  have h3 := (s (i + 3)).isLt
  unfold bigEndian
  omega

theorem byteAt_load (s : Nat → BitVec 8) {k : Nat} (hk : k < 4) : byteAt (LittleEndian.load s 0) k = (s k).toNat := by
  have hbyte := LittleEndian.extract_load (m := s) (p := 0) (w := 32) (by decide) (i := k) hk
  rw [Nat.zero_add] at hbyte
  rw [← hbyte, BitVec.extractLsb'_toNat, byteAt, Nat.shiftRight_eq_div_pow, Nat.pow_mul]

theorem fdt32LdAligned_eq (m : Bytes) (p : Nat) : fdt32LdAligned m p = bigEndian (m.buffer p) 0 := by
  rw [fdt32LdAligned, toNat_fdt32ToCpu, cellValue, byteAt_load _ (by decide), byteAt_load _ (by decide),
    byteAt_load _ (by decide), byteAt_load _ (by decide)]
  rfl

theorem or_bytes {b0 b1 b2 b3 : Nat} (h1 : b1 < 256) (h2 : b2 < 256) (h3 : b3 < 256) :
    b0 * 2 ^ 24 ||| b1 * 2 ^ 16 ||| b2 * 2 ^ 8 ||| b3 = b0 * 2 ^ 24 + b1 * 2 ^ 16 + b2 * 2 ^ 8 + b3 := by
  have hor : ∀ {a b i : Nat}, b < 2 ^ i → a * 2 ^ i ||| b = a * 2 ^ i + b := by
    intro a b i hb
    rw [Nat.mul_comm, Nat.two_pow_add_eq_or_of_lt hb]
  rw [hor (show b1 * 2 ^ 16 < 2 ^ 24 by omega),
    show b0 * 2 ^ 24 + b1 * 2 ^ 16 = (b0 * 2 ^ 8 + b1) * 2 ^ 16 by omega,
    hor (show b2 * 2 ^ 8 < 2 ^ 16 by omega),
    show (b0 * 2 ^ 8 + b1) * 2 ^ 16 + b2 * 2 ^ 8 = ((b0 * 2 ^ 8 + b1) * 2 ^ 8 + b2) * 2 ^ 8 by omega,
    hor (show b3 < 2 ^ 8 from h3)]

theorem toNat_byte_shift (x : BitVec 8) {s : Nat} (hs : s ≤ 24) : (x.setWidth 32 <<< s).toNat = x.toNat * 2 ^ s := by
  have hx := x.isLt
  have hpow : 2 ^ s ≤ 2 ^ 24 := Nat.pow_le_pow_right (by decide) hs
  have hlt : x.toNat * 2 ^ s < 2 ^ 32 :=
    calc x.toNat * 2 ^ s ≤ 255 * 2 ^ 24 := Nat.mul_le_mul (Nat.le_of_lt_succ hx) hpow
      _ < 2 ^ 32 := by decide
  have hbyte : x.toNat % 2 ^ 32 = x.toNat := Nat.mod_eq_of_lt (by omega)
  rw [BitVec.toNat_shiftLeft, BitVec.toNat_setWidth, hbyte, Nat.shiftLeft_eq, Nat.mod_eq_of_lt hlt]

theorem fdt32Ld_eq (m : Bytes) (p : Nat) : fdt32Ld m p = bigEndian (m.buffer p) 0 := by
  have hlow : ((m.buffer p 3).setWidth 32).toNat = (m.buffer p 3).toNat := by
    have hbyte := (m.buffer p 3).isLt
    rw [BitVec.toNat_setWidth, Nat.mod_eq_of_lt (by omega)]
  rw [fdt32Ld, BitVec.toNat_or, BitVec.toNat_or, BitVec.toNat_or, toNat_byte_shift _ (by decide),
    toNat_byte_shift _ (by decide), toNat_byte_shift _ (by decide), hlow,
    or_bytes (BitVec.isLt _) (BitVec.isLt _) (BitVec.isLt _)]
  rfl

/-! ## The header -/

namespace Fdt

variable (t : Fdt)

/-- Byte `i` of the tree. -/
def byte (i : Nat) : BitVec 8 := t.mem.buffer t.ptr i

/-- `fdt_get_header`, of the field at this place. -/
def header (field : Nat) : Nat := fdt32Ld t.mem (wrap32 (t.ptr + field))

def magic : Nat := t.header 0

def totalsize : Nat := t.header 4

def offDtStruct : Nat := t.header 8

def offDtStrings : Nat := t.header 12

def offMemRsvmap : Nat := t.header 16

def version : Nat := t.header 20

def lastCompVersion : Nat := t.header 24

def sizeDtStrings : Nat := t.header 32

def sizeDtStruct : Nat := t.header 36

theorem header_lt (field : Nat) : t.header field < 2 ^ 32 := by
  rw [header, fdt32Ld_eq]
  exact bigEndian_lt _ _

variable {t}

theorem buffer_at (x : Nat) : t.mem.buffer (wrap32 (t.ptr + x)) = fun i => t.byte (x + i) := buffer_add t.ptr x

end Fdt

def fdtMagic : Nat := 0xd00dfeed

/-- `FDT_SW_MAGIC`. -/
def fdtSwMagic : Nat := 2 ^ 32 - 1 - fdtMagic

def fdtFirstSupportedVersion : Nat := 0x02

def fdtLastSupportedVersion : Nat := 0x11

/-- `INT_MAX`, and `INT32_MAX`. -/
def intMax : Nat := 2 ^ 31 - 1

/-- `fdt_ro_probe_`; a size below `INT32_MAX` is returned as it is. -/
def fdtRoProbe (t : Fdt) : Int :=
  if t.ptr % 8 ≠ 0 then fdtErrAlignment
  else
    let sized : Int := if t.totalsize < intMax then t.totalsize else fdtErrTruncated
    if t.magic = fdtMagic then
      if t.version < fdtFirstSupportedVersion then fdtErrBadversion
      else if t.lastCompVersion > fdtLastSupportedVersion then fdtErrBadversion
      else sized
    else if t.magic = fdtSwMagic then
      if t.sizeDtStruct = 0 then fdtErrBadstate else sized
    else fdtErrBadmagic

def checkOff (hdrsize totalsize off : Nat) : Bool := off ≥ hdrsize && off ≤ totalsize

def checkBlock (hdrsize totalsize base size : Nat) : Bool :=
  if ¬ checkOff hdrsize totalsize base then false
  else if wrap32 (base + size) < base then false
  else if ¬ checkOff hdrsize totalsize (wrap32 (base + size)) then false
  else true

/-- `fdt_header_size_`. -/
def fdtHeaderSizeOf (version : Nat) : Nat :=
  if version ≤ 1 then 7 * 4
  else if version ≤ 2 then 7 * 4 + 4
  else if version ≤ 3 then 7 * 4 + 4 + 4
  else if version ≤ 16 then 7 * 4 + 4 + 4
  else 7 * 4 + 4 + 4 + 4

def fdtHeaderSize (t : Fdt) : Nat := fdtHeaderSizeOf t.version

def fdtCheckHeader (t : Fdt) : Int :=
  if t.ptr % 8 ≠ 0 then fdtErrAlignment
  else if t.magic ≠ fdtMagic then fdtErrBadmagic
  else if t.version < fdtFirstSupportedVersion ∨ t.lastCompVersion > fdtLastSupportedVersion then fdtErrBadversion
  else if t.version < t.lastCompVersion then fdtErrBadversion
  else
    let hdrsize := fdtHeaderSize t
    if t.totalsize < hdrsize ∨ t.totalsize > intMax then fdtErrTruncated
    -- the memory reservation block
    else if t.offMemRsvmap % 8 ≠ 0 then fdtErrAlignment
    -- the structure block
    else if t.offDtStruct % 4 ≠ 0 then fdtErrAlignment
    else if ¬ checkOff hdrsize t.totalsize t.offMemRsvmap then fdtErrTruncated
    else if t.version < 17 ∧ ¬ checkOff hdrsize t.totalsize t.offDtStruct then fdtErrTruncated
    else if ¬ t.version < 17 ∧ ¬ checkBlock hdrsize t.totalsize t.offDtStruct t.sizeDtStruct then fdtErrTruncated
    else if ¬ checkBlock hdrsize t.totalsize t.offDtStrings t.sizeDtStrings then fdtErrTruncated
    else 0

/-! ## What a checked header says -/

/-- What `fdt_check_header` has established when it returns 0. -/
structure HeaderChecked (t : Fdt) : Prop where
  aligned : t.ptr % 8 = 0
  magic : t.magic = fdtMagic
  version_ge : fdtFirstSupportedVersion ≤ t.version
  lastCompVersion_le : t.lastCompVersion ≤ fdtLastSupportedVersion
  lastCompVersion_le_version : t.lastCompVersion ≤ t.version
  hdrsize_le : fdtHeaderSize t ≤ t.totalsize
  totalsize_le : t.totalsize ≤ intMax
  rsvmap_aligned : t.offMemRsvmap % 8 = 0
  struct_aligned : t.offDtStruct % 4 = 0
  rsvmap : fdtHeaderSize t ≤ t.offMemRsvmap ∧ t.offMemRsvmap ≤ t.totalsize
  struct : fdtHeaderSize t ≤ t.offDtStruct ∧ t.offDtStruct ≤ t.totalsize
  /-- From version 17 on the structure block has a size of its own. -/
  struct_end : 17 ≤ t.version → t.offDtStruct + t.sizeDtStruct ≤ t.totalsize
  strings : fdtHeaderSize t ≤ t.offDtStrings ∧ t.offDtStrings + t.sizeDtStrings ≤ t.totalsize

theorem checkOff_iff {hdrsize totalsize off : Nat} :
    checkOff hdrsize totalsize off = true ↔ hdrsize ≤ off ∧ off ≤ totalsize := by
  simp [checkOff]

/-- A block lies between the header and the end, without going round. -/
theorem checkBlock_iff {hdrsize totalsize base size : Nat} (hbase : base < 2 ^ 32) (hsize : size < 2 ^ 32)
    (htotal : totalsize < 2 ^ 32) :
    checkBlock hdrsize totalsize base size = true ↔ hdrsize ≤ base ∧ base + size ≤ totalsize := by
  unfold checkBlock wrap32
  simp only [checkOff_iff]
  split_ifs <;> simp only [false_iff, true_iff] <;> omega

/-- A check that fails returns its error. -/
theorem check_eq_zero_iff {c : Prop} [Decidable c] {err rest : Int} (herr : err ≠ 0) :
    (if c then err else rest) = 0 ↔ ¬ c ∧ rest = 0 := by
  by_cases hc : c
  · simp [hc, herr]
  · simp [hc]

theorem fdtCheckHeader_eq_zero_iff (t : Fdt) : fdtCheckHeader t = 0 ↔ HeaderChecked t := by
  have hblock : ∀ base size, checkBlock (fdtHeaderSize t) (t.header 4) (t.header base) (t.header size) = true ↔
      fdtHeaderSize t ≤ t.header base ∧ t.header base + t.header size ≤ t.header 4 := fun base size =>
    checkBlock_iff (t.header_lt base) (t.header_lt size) (t.header_lt 4)
  have halignment : fdtErrAlignment ≠ 0 := by decide
  have htruncated : fdtErrTruncated ≠ 0 := by decide
  have hversion : fdtErrBadversion ≠ 0 := by decide
  have hmagic : fdtErrBadmagic ≠ 0 := by decide
  unfold fdtCheckHeader
  simp only [check_eq_zero_iff halignment, check_eq_zero_iff htruncated, check_eq_zero_iff hversion,
    check_eq_zero_iff hmagic, not_not, not_or, not_and, and_true]
  simp only [checkOff_iff, Fdt.offDtStrings, Fdt.sizeDtStrings, Fdt.offDtStruct, Fdt.sizeDtStruct, Fdt.totalsize,
    hblock]
  constructor
  · rintro ⟨h1, h2, ⟨h3, h4⟩, h5, ⟨h6, h7⟩, h8, h9, h10, h11, h12, h13⟩
    refine ⟨h1, h2, by omega, by omega, by omega, by exact Nat.not_lt.1 h6, Nat.not_lt.1 h7, h8, h9, h10, ?_, ?_, h13⟩
    · by_cases hv : t.version < 17
      · exact h11 hv
      · have := h12 hv
        exact ⟨this.1, Nat.le_trans (Nat.le_add_right _ _) this.2⟩
    · exact fun hv => (h12 (Nat.not_lt.2 hv)).2
  · intro h
    exact ⟨h.aligned, h.magic, ⟨Nat.not_lt.2 h.version_ge, Nat.not_lt.2 h.lastCompVersion_le⟩,
      Nat.not_lt.2 h.lastCompVersion_le_version, ⟨Nat.not_lt.2 h.hdrsize_le, Nat.not_lt.2 h.totalsize_le⟩,
      h.rsvmap_aligned, h.struct_aligned, h.rsvmap, fun _ => h.struct,
      fun hv => ⟨h.struct.1, h.struct_end (Nat.not_lt.1 hv)⟩, h.strings⟩

/-- A probe that does not fail returns the size, which is an `int`. -/
theorem fdtRoProbe_of_nonneg {t : Fdt} (h : 0 ≤ fdtRoProbe t) :
    fdtRoProbe t = t.totalsize ∧ t.totalsize < intMax ∧ (t.magic = fdtMagic ∨ t.magic = fdtSwMagic) := by
  have halignment : ¬ (0 : Int) ≤ fdtErrAlignment := by decide
  have htruncated : ¬ (0 : Int) ≤ fdtErrTruncated := by decide
  have hversion : ¬ (0 : Int) ≤ fdtErrBadversion := by decide
  have hmagic : ¬ (0 : Int) ≤ fdtErrBadmagic := by decide
  have hstate : ¬ (0 : Int) ≤ fdtErrBadstate := by decide
  unfold fdtRoProbe at h ⊢
  by_cases haligned : t.ptr % 8 ≠ 0
  · rw [if_pos haligned] at h
    exact absurd h halignment
  rw [if_neg haligned] at h ⊢
  dsimp only at h ⊢
  by_cases hsize : t.totalsize < intMax
  · rw [if_pos hsize] at h ⊢
    by_cases hcomplete : t.magic = fdtMagic
    · rw [if_pos hcomplete] at h ⊢
      by_cases hfirst : t.version < fdtFirstSupportedVersion
      · rw [if_pos hfirst] at h
        exact absurd h hversion
      · by_cases hlast : t.lastCompVersion > fdtLastSupportedVersion
        · rw [if_neg hfirst, if_pos hlast] at h
          exact absurd h hversion
        · rw [if_neg hfirst, if_neg hlast]
          exact ⟨rfl, hsize, Or.inl hcomplete⟩
    · rw [if_neg hcomplete] at h ⊢
      by_cases hunfinished : t.magic = fdtSwMagic
      · rw [if_pos hunfinished] at h ⊢
        by_cases hstarted : t.sizeDtStruct = 0
        · rw [if_pos hstarted] at h
          exact absurd h hstate
        · rw [if_neg hstarted]
          exact ⟨rfl, hsize, Or.inr hunfinished⟩
      · rw [if_neg hunfinished] at h
        exact absurd h hmagic
  · rw [if_neg hsize] at h
    split_ifs at h with h1 h2 h3 h4 h5 <;> contradiction

/-- A header that has been checked, of a tree that `fdt_ro_probe_` lets through. -/
structure Probed (t : Fdt) : Prop extends HeaderChecked t where
  small : t.totalsize < intMax

theorem Probed.roProbe {t : Fdt} (h : Probed t) : fdtRoProbe t = t.totalsize := by
  unfold fdtRoProbe
  rw [if_neg (not_not.2 h.aligned), if_pos h.magic, if_neg (Nat.not_lt.2 h.version_ge),
    if_neg (Nat.not_lt.2 h.lastCompVersion_le), if_pos h.small]

theorem Probed.roProbe_nonneg {t : Fdt} (h : Probed t) : 0 ≤ fdtRoProbe t := by
  rw [h.roProbe]
  exact Int.natCast_nonneg _

theorem le_fdtHeaderSize (t : Fdt) : 28 ≤ fdtHeaderSize t := by
  unfold fdtHeaderSize fdtHeaderSizeOf
  split_ifs <;> decide

/-- Version 17: no reservations, and a root with one subnode, `a`, whose property `compatible` is `ab`. -/
def smallTreeBytes : List (BitVec 8) :=
  [0xd0, 0x0d, 0xfe, 0xed, 0, 0, 0, 111, 0, 0, 0, 56, 0, 0, 0, 100, 0, 0, 0, 40, 0, 0, 0, 17, 0, 0, 0, 16, 0, 0, 0, 0,
    0, 0, 0, 11, 0, 0, 0, 44,
    0, 0, 0, 0, 0, 0, 0, 0, 0, 0, 0, 0, 0, 0, 0, 0,
    0, 0, 0, 1, 0, 0, 0, 0,
    0, 0, 0, 1, 0x61, 0, 0, 0,
    0, 0, 0, 3, 0, 0, 0, 3, 0, 0, 0, 0, 0x61, 0x62, 0, 0,
    0, 0, 0, 2, 0, 0, 0, 2, 0, 0, 0, 9,
    0x63, 0x6f, 0x6d, 0x70, 0x61, 0x74, 0x69, 0x62, 0x6c, 0x65, 0]

theorem smallTree_ptr_lt : 0x1000 < 2 ^ 32 := by decide

def smallTree : Fdt := ⟨fun a => smallTreeBytes.getD (a - 0x1000) 0, 0x1000, smallTree_ptr_lt⟩

theorem smallTree_probed : Probed smallTree where
  aligned := by decide
  magic := by decide
  version_ge := by decide
  lastCompVersion_le := by decide
  lastCompVersion_le_version := by decide
  hdrsize_le := by decide
  totalsize_le := by decide
  rsvmap_aligned := by decide
  struct_aligned := by decide
  rsvmap := by decide
  struct := by decide
  struct_end := by decide
  strings := by decide
  small := by decide

end RiscvOs

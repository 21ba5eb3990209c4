import RiscvOs.FdtNodes
import RiscvOs.Strlen
/-!
# Properties of a node (`libfdt/fdt_ro.c`)

`fdt_getprop` goes over the properties behind a node's `FDT_BEGIN_NODE`, passes by `FDT_NOP`, and compares their names,
which stand in the strings block.  It returns the first of the name (`fdtGetpropNamelen_eq`).
-/
namespace RiscvOs

open FirstDifference (Agree First)
open Loops (Returns Reaches)

/-! ## The strings block -/

/-- The length `fdt_get_string` may search from `absoffset` on, or its error. -/
def stringRoom (t : Fdt) (stroffset : Int) (len : Nat) : Except Int Nat :=
  if t.magic = fdtMagic then
    if stroffset < 0 then .error fdtErrBadoffset
    else if t.version ≥ 17 then
      if toUint32 stroffset ≥ t.sizeDtStrings then .error fdtErrBadoffset
      else .ok (min (t.sizeDtStrings - toUint32 stroffset) len)
    else .ok len
  else if t.magic = fdtSwMagic then
    let swStroffset := toUint32 (-stroffset)
    if stroffset ≥ 0 ∨ swStroffset > t.sizeDtStrings then .error fdtErrBadoffset
    else .ok (min swStroffset len)
  else .error fdtErrInternal

/-- `fdt_get_string`: the string and `*lenp`, or `NULL` and `*lenp`. -/
def fdtGetString (t : Fdt) (stroffset : Int) : Except Int (Nat × Int) :=
  let totalsize := fdtRoProbe t
  if totalsize < 0 then .error totalsize
  else
    let absoffset := wrap32 (toUint32 stroffset + t.offDtStrings)
    if absoffset ≥ toUint32 totalsize then .error fdtErrBadoffset
    else
      match stringRoom t stroffset (toUint32 totalsize - absoffset) with
      | .error err => .error err
      | .ok len    =>
        let s := wrap32 (t.ptr + absoffset)
        match (memchr t.mem s 0 len).1 with
        | none   => .error fdtErrTruncated
        | some n => .ok (s, toInt32 (sub32 n s))

/-- `fdt_string_eq_`. -/
def fdtStringEq (t : Fdt) (stroffset : Int) (s : Nat) (len : Int) : Bool :=
  match fdtGetString t stroffset with
  | .error _     => false
  | .ok (p, slen) => slen = len ∧ memcmp t.mem p s (toUint32 len) = 0

/-! ## Properties -/

/-- `fdt_check_prop_offset_`. -/
def fdtCheckPropOffset (t : Fdt) (offset : Int) : Int :=
  if offset < 0 ∨ toUint32 offset % 4 ≠ 0 then fdtErrBadoffset
  else
    let r := fdtNextTag t offset
    if r.1 ≠ fdtProp then fdtErrBadoffset else r.2

/-- A round of `nextprop_`. -/
def nextpropRound (t : Fdt) (offset : Int) : Int ⊕ Int :=
  let r := fdtNextTag t offset
  if r.1 = fdtEnd then .inr (if r.2 ≥ 0 then fdtErrBadstructure else r.2)
  else if r.1 = fdtProp then .inr offset
  else if r.1 = fdtNop then .inl r.2
  else .inr fdtErrNotfound

/-- `nextprop_`. -/
def nextprop (t : Fdt) (offset : Int) : Int := (Loops.run (nextpropRound t) maxRounds offset).getD fdtErrInternal

def fdtFirstPropertyOffset (t : Fdt) (nodeoffset : Int) : Int :=
  let offset := fdtCheckNodeOffset t nodeoffset
  if offset < 0 then offset else nextprop t offset

def fdtNextPropertyOffset (t : Fdt) (offset : Int) : Int :=
  let offset := fdtCheckPropOffset t offset
  if offset < 0 then offset else nextprop t offset

/-- `fdt_get_property_by_offset_`: the property and `*lenp`. -/
def fdtGetPropertyByOffset (t : Fdt) (offset : Int) : Except Int (Nat × Int) :=
  let err := fdtCheckPropOffset t offset
  if err < 0 then .error err
  else
    let prop := fdtOffsetPtrOf t offset
    .ok (prop, toInt32 (fdt32LdAligned t.mem (wrap32 (prop + 4))))

/-- What the search for a property ends with: the property, `*lenp` and `*poffset`, or `*lenp`. -/
abbrev FoundProperty := Except Int (Nat × Int × Int)

/-- A round of `fdt_get_property_namelen_`. -/
def getPropertyRound (t : Fdt) (name : Nat) (namelen offset : Int) : Int ⊕ FoundProperty :=
  if offset ≥ 0 then
    match fdtGetPropertyByOffset t offset with
    | .error _        => .inr (.error fdtErrInternal)
    | .ok (prop, len) =>
      if fdtStringEq t (toInt32 (fdt32LdAligned t.mem (wrap32 (prop + 8)))) name namelen then
        .inr (.ok (prop, len, offset))
      else .inl (fdtNextPropertyOffset t offset)
  else .inr (.error offset)

/-- `fdt_get_property_namelen_`. -/
def fdtGetPropertyNamelen (t : Fdt) (nodeoffset : Int) (name : Nat) (namelen : Int) : FoundProperty :=
  (Loops.run (getPropertyRound t name namelen) maxRounds (fdtFirstPropertyOffset t nodeoffset)).getD
    (.error fdtErrInternal)

/-- `prop->data`, realigned. -/
def propData (t : Fdt) (prop : Nat) (poffset : Int) : Nat :=
  let data := wrap32 (prop + 12)
  if t.version < 0x10 ∧ wrap32 (toUint32 poffset + 12) % 8 ≠ 0 ∧ fdt32LdAligned t.mem (wrap32 (prop + 4)) ≥ 8 then
    wrap32 (data + 4)
  else data

/-- `fdt_getprop_namelen`: the value and `*lenp`, or `NULL` and `*lenp`. -/
def fdtGetpropNamelen (t : Fdt) (nodeoffset : Int) (name : Nat) (namelen : Int) : Except Int (Nat × Int) :=
  match fdtGetPropertyNamelen t nodeoffset name namelen with
  | .error len              => .error len
  | .ok (prop, len, poffset) => .ok (propData t prop poffset, len)

/-- `strlen`, of a string that ends. -/
def strlenOf (m : Bytes) (s : Nat) : Nat := ((strlen m s maxRounds).map Prod.fst).getD 0

def fdtGetprop (t : Fdt) (nodeoffset : Int) (name : Nat) : Except Int (Nat × Int) :=
  fdtGetpropNamelen t nodeoffset name (toInt32 (strlenOf t.mem name))

/-! ## Names -/

/-- Where the strings block ends, from the start of the tree. -/
def Fdt.stringsEnd (t : Fdt) : Nat :=
  if 17 ≤ t.version then t.offDtStrings + t.sizeDtStrings else t.totalsize

/-- The string at an offset of the strings block. -/
def Fdt.string (t : Fdt) (stroffset : Nat) : CString := fun i => t.byte (t.offDtStrings + stroffset + i)

/-- The string at this offset has this length, and ends in the strings block. -/
structure Fdt.HoldsString (t : Fdt) (stroffset len : Nat) : Prop where
  offset_lt : stroffset < 2 ^ 31
  length : (t.string stroffset).HasLength len
  inside : t.offDtStrings + stroffset + len < t.stringsEnd

instance (s : CString) (len : Nat) : Decidable (s.HasLength len) :=
  decidable_of_iff (s len = 0 ∧ ∀ i < len, s i ≠ 0)
    ⟨fun ⟨h0, h⟩ => ⟨h0, fun i hi => Nat.not_lt.1 fun hlt => h i hlt hi⟩,
      fun ⟨h0, h⟩ => ⟨h0, fun _ hlt hi => Nat.not_le.2 hlt (h hi)⟩⟩

instance (t : Fdt) (stroffset len : Nat) : Decidable (t.HoldsString stroffset len) :=
  decidable_of_iff (stroffset < 2 ^ 31 ∧ (t.string stroffset).HasLength len ∧
      t.offDtStrings + stroffset + len < t.stringsEnd)
    ⟨fun ⟨h1, h2, h3⟩ => ⟨h1, h2, h3⟩, fun h => ⟨h.offset_lt, h.length, h.inside⟩⟩

instance (t : Fdt) (stroffset name len : Nat) : Decidable (Agree (t.string stroffset) (t.mem.buffer name) len) :=
  inferInstanceAs (Decidable (∀ i < len, t.string stroffset i = t.mem.buffer name i))

/-- The name at this offset of the strings block has this length, and the bytes of `name`. -/
def Fdt.NameAt (t : Fdt) (stroffset name len : Nat) : Prop :=
  t.HoldsString stroffset len ∧ Agree (t.string stroffset) (t.mem.buffer name) len

instance (t : Fdt) (stroffset name len : Nat) : Decidable (t.NameAt stroffset name len) :=
  inferInstanceAs (Decidable (t.HoldsString stroffset len ∧ Agree (t.string stroffset) (t.mem.buffer name) len))

section

variable {t : Fdt} (ht : Probed t)

include ht

theorem Probed.stringsEnd_le : t.stringsEnd ≤ t.totalsize := by
  unfold Fdt.stringsEnd
  split
  · exact ht.strings.2
  · exact Nat.le_refl _

theorem stringRoom_of_neg {stroffset : Nat} (hlt : stroffset < 2 ^ 32) (hneg : 2 ^ 31 ≤ stroffset) (len : Nat) :
    stringRoom t (toInt32 stroffset) len = .error fdtErrBadoffset := by
  have hbelow : toInt32 stroffset < 0 := by
    unfold toInt32
    split <;> omega
  unfold stringRoom
  rw [if_pos ht.magic, if_pos hbelow]

/-- The room is what is left of the block. -/
theorem stringRoom_of_nonneg {stroffset : Nat} (hlt : stroffset < 2 ^ 31)
    (hin : t.offDtStrings + stroffset < t.totalsize) :
    stringRoom t stroffset (t.totalsize - (t.offDtStrings + stroffset)) =
      if t.offDtStrings + stroffset < t.stringsEnd then .ok (t.stringsEnd - (t.offDtStrings + stroffset))
      else .error fdtErrBadoffset := by
  have hstrings := ht.strings.2
  have hunsigned : toUint32 (stroffset : Int) = stroffset := toUint32_natCast (by omega)
  unfold stringRoom Fdt.stringsEnd
  rw [if_pos ht.magic, if_neg (Int.not_lt.2 (Int.natCast_nonneg _)), hunsigned]
  by_cases hversion : 17 ≤ t.version
  · rw [if_pos hversion, if_pos hversion]
    by_cases hroom : stroffset ≥ t.sizeDtStrings
    · rw [if_pos hroom, if_neg (by omega)]
    · rw [if_neg hroom, if_pos (by omega)]
      congr 1
      omega
  · rw [if_neg hversion, if_neg hversion, if_pos hin]

omit ht in
theorem memchr_string (stroffset : Nat) {room : Nat}
    (hroom : t.offDtStrings + stroffset + room = t.stringsEnd) (hlt : stroffset < 2 ^ 31) :
    (∃ len, t.HoldsString stroffset len ∧ len < room ∧
        (memchr t.mem (wrap32 (t.ptr + (t.offDtStrings + stroffset))) 0 room).1 =
          some (wrap32 (wrap32 (t.ptr + (t.offDtStrings + stroffset)) + len))) ∨
      (∀ len, ¬ t.HoldsString stroffset len) ∧
        (memchr t.mem (wrap32 (t.ptr + (t.offDtStrings + stroffset))) 0 room).1 = none := by
  have hbyte : ∀ i, ((t.mem.buffer (wrap32 (t.ptr + (t.offDtStrings + stroffset))) i).toNat : Int) = 0 ↔
      t.string stroffset i = 0 := by
    intro i
    rw [Fdt.buffer_at, Fdt.string, BitVec.toNat_eq]
    exact Int.natCast_eq_zero
  rcases memchr_cases (m := t.mem) (wrap32_lt (t.ptr + (t.offDtStrings + stroffset))) room 0 with
    ⟨habsent, hrun⟩ | ⟨i, hi, hnul, hbefore, hrun⟩
  · refine Or.inr ⟨fun len hlen => ?_, by rw [hrun]⟩
    have hinside := hlen.inside
    exact habsent len (by omega) ((hbyte len).2 hlen.length.1)
  · refine Or.inl ⟨i, ⟨hlt, ⟨(hbyte i).1 hnul, fun j hj => ?_⟩, by omega⟩, hi, by rw [hrun]⟩
    by_contra hlt
    exact hbefore j (Nat.not_le.1 hlt) ((hbyte j).2 hj)

/-- **`fdt_get_string` returns the strings that the block holds**, and their lengths. -/
theorem fdtGetString_cases {stroffset : Nat} (hlt : stroffset < 2 ^ 32) :
    (∃ len, t.HoldsString stroffset len ∧ fdtGetString t (toInt32 stroffset) =
        .ok (wrap32 (t.ptr + (t.offDtStrings + stroffset)), (len : Int))) ∨
      (∀ len, ¬ t.HoldsString stroffset len) ∧ ∃ err < 0, fdtGetString t (toInt32 stroffset) = .error err := by
  have hstrings := ht.strings.2
  have hsmall := ht.small
  have hend := ht.stringsEnd_le
  have hbadoffset : fdtErrBadoffset < 0 := by decide
  have htotal : toUint32 ((t.totalsize : Nat) : Int) = t.totalsize := toUint32_natCast (t.header_lt 4)
  unfold intMax at hsmall
  unfold fdtGetString
  rw [ht.roProbe]
  dsimp only
  rw [if_neg (Int.not_lt.2 (Int.natCast_nonneg _)), toUint32_toInt32 hlt, htotal]
  by_cases hneg : 2 ^ 31 ≤ stroffset
  · refine Or.inr ⟨fun len hlen => absurd hlen.offset_lt (Nat.not_lt.2 hneg), fdtErrBadoffset, hbadoffset, ?_⟩
    rw [stringRoom_of_neg ht hlt hneg]
    split_ifs <;> rfl
  have hlt : stroffset < 2 ^ 31 := Nat.not_le.1 hneg
  rw [toInt32_of_lt hlt, Nat.add_comm stroffset, wrap32_of_lt (by omega)]
  by_cases hout : t.offDtStrings + stroffset ≥ t.totalsize
  · rw [if_pos hout]
    refine Or.inr ⟨fun len hlen => ?_, fdtErrBadoffset, hbadoffset, rfl⟩
    have hinside := hlen.inside
    omega
  rw [if_neg hout, stringRoom_of_nonneg ht hlt (Nat.not_le.1 hout)]
  by_cases hroom : t.offDtStrings + stroffset < t.stringsEnd
  · rw [if_pos hroom]
    dsimp only
    rcases memchr_string stroffset (Nat.add_sub_cancel' (Nat.le_of_lt hroom)) hlt with
      ⟨len, hlen, hin, hfind⟩ | ⟨hnone, hfind⟩
    · rw [hfind]
      have hsub : ∀ s : Nat, s < 2 ^ 32 → sub32 (wrap32 (s + len)) s = len := by
        intro s hs
        unfold sub32 wrap32
        omega
      refine Or.inl ⟨len, hlen, ?_⟩
      dsimp only
      rw [hsub _ (wrap32_lt _), toInt32_of_lt (by omega)]
    · rw [hfind]
      exact Or.inr ⟨hnone, fdtErrTruncated, by decide, rfl⟩
  · rw [if_neg hroom]
    refine Or.inr ⟨fun len hlen => ?_, fdtErrBadoffset, hbadoffset, rfl⟩
    have hinside := hlen.inside
    omega

/-- **`fdt_string_eq_` compares the name that the block holds.** -/
theorem fdtStringEq_iff {stroffset name len : Nat} (hlt : stroffset < 2 ^ 32) (hname : name < 2 ^ 32)
    (hlen : len < 2 ^ 32) :
    fdtStringEq t (toInt32 stroffset) name len = true ↔ t.NameAt stroffset name len := by
  have hcount : toUint32 (len : Int) = len := toUint32_natCast hlen
  unfold fdtStringEq
  rcases fdtGetString_cases ht hlt with ⟨l, hl, hrun⟩ | ⟨hnone, err, -, hrun⟩
  · have hstring : t.mem.buffer (wrap32 (t.ptr + (t.offDtStrings + stroffset))) = t.string stroffset := Fdt.buffer_at _
    rw [hrun]
    dsimp only
    rw [hcount, decide_eq_true_iff, memcmp_eq_zero_iff _ (wrap32_lt _) hname, hstring]
    constructor
    · rintro ⟨hsame, hagree⟩
      obtain rfl : l = len := Int.ofNat.inj hsame
      exact ⟨hl, hagree⟩
    · rintro ⟨hholds, hagree⟩
      exact ⟨by rw [hl.length.unique hholds.length], hagree⟩
  · rw [hrun]
    exact iff_of_false Bool.false_ne_true fun h => hnone len h.1

end

/-! ## What stands in a property -/

def Block.nameoff (k : Block) (o : Nat) : Nat := bigEndian k.bytes (o + 8)

/-- A property with this name. -/
def Fdt.isNamed (t : Fdt) (name namelen : Nat) (p : Tag) : Bool :=
  p.kind = .prop ∧ t.NameAt (t.block.nameoff p.off) name namelen

/-- The address of the value of the property at `o`. -/
def Fdt.valuePtr (t : Fdt) (o : Nat) : Nat := wrap32 (t.ptr + (t.offDtStruct + (o + 12 + t.block.padding o)))

section

variable {t : Fdt} {p : Tag}

theorem fdtOffsetPtrOf_add {o : Nat} (ho : o < 2 ^ 32) (i : Nat) :
    wrap32 (fdtOffsetPtrOf t o + i) = wrap32 (t.ptr + (t.offDtStruct + (o + i))) := by
  rw [fdtOffsetPtrOf, toUint32_natCast ho]
  unfold wrap32
  omega

theorem propLen_le {o : Nat} (h : t.block.Reads p) (hkind : p.kind = .prop) (ho : p.off = o) :
    o + 12 + t.block.propLen o + t.block.padding o ≤ t.block.size := by
  obtain ⟨e, hin, he, -⟩ := h.ends
  rw [hkind, ho] at he
  rw [← show e = o + 12 + t.block.propLen o + t.block.padding o from he]
  exact hin

theorem propData_eq {o : Nat} (ho : o < 2 ^ 31) : propData t (fdtOffsetPtrOf t o) o = t.valuePtr o := by
  have hold : t.block.realigned = true ↔ t.version < 0x10 := by simp [Fdt.block]
  have hlen : fdt32LdAligned t.mem (wrap32 (fdtOffsetPtrOf t o + 4)) = t.block.propLen o := by
    rw [fdtOffsetPtrOf_add (by omega), fdt32LdAligned_block, Block.propLen]
  have hdata : wrap32 (wrap32 (fdtOffsetPtrOf t o + 12) + 4) = wrap32 (t.ptr + (t.offDtStruct + (o + 12 + 4))) := by
    rw [fdtOffsetPtrOf_add (by omega)]
    unfold wrap32
    omega
  have hoff : wrap32 (toUint32 (o : Int) + 12) = o + 12 := by
    rw [toUint32_natCast (by omega), wrap32_of_lt (by omega)]
  unfold propData Fdt.valuePtr Block.padding
  dsimp only
  rw [hlen, hdata, hoff, fdtOffsetPtrOf_add (by omega)]
  by_cases hpad : t.version < 0x10 ∧ (o + 12) % 8 ≠ 0 ∧ t.block.propLen o ≥ 8
  · rw [if_pos hpad, if_pos ⟨hold.2 hpad.1, hpad.2.2, hpad.2.1⟩]
  · rw [if_neg hpad, if_neg fun h => hpad ⟨hold.1 h.1, h.2.2, h.2.1⟩]

variable (hsize : t.block.size + 4 ≤ 2 ^ 31)

include hsize

theorem fdtCheckPropOffset_of_reads (h : t.block.Reads p) (hkind : p.kind = .prop) (haligned : p.off % 4 = 0) :
    fdtCheckPropOffset t p.off = p.next := by
  have hbounds := h.bounds
  unfold fdtCheckPropOffset
  rw [toUint32_natCast (by omega), if_neg (by omega), fdtNextTag_of_reads h hsize, hkind]
  rfl

theorem fdtGetPropertyByOffset_of_reads (h : t.block.Reads p) (hkind : p.kind = .prop) (haligned : p.off % 4 = 0) :
    fdtGetPropertyByOffset t p.off = .ok (fdtOffsetPtrOf t p.off, (t.block.propLen p.off : Int)) := by
  have hbounds := h.bounds
  have hlen := propLen_le h hkind rfl
  unfold fdtGetPropertyByOffset
  rw [fdtCheckPropOffset_of_reads hsize h hkind haligned]
  dsimp only
  rw [if_neg (by omega), fdtOffsetPtrOf_add (by omega), fdt32LdAligned_block, ← Block.propLen,
    toInt32_of_lt (by omega)]

/-! ## From property to property -/

theorem nextpropRound_of_reads (h : t.block.Reads p) : nextpropRound t p.off =
    match p.kind with
    | .fin  => .inr fdtErrBadstructure
    | .prop => .inr (p.off : Int)
    | .nop  => .inl (p.next : Int)
    | _     => .inr fdtErrNotfound := by
  unfold nextpropRound
  rw [fdtNextTag_of_reads h hsize]
  cases p.kind with
  | fin => exact if_pos rfl
  | _ => rfl

theorem nextpropRound_cases (offset : Int) (hlt : offset < 2 ^ 31) :
    (∃ r, nextpropRound t offset = .inr r) ∨
      ∃ offset', nextpropRound t offset = .inl offset' ∧ offset' < 2 ^ 31 ∧ offset < offset' ∧ 0 ≤ offset := by
  rcases fdtNextTag_total hlt hsize with ⟨tag, htag, rfl, -⟩ | ⟨-, err, -, hrun⟩
  · have hbounds := htag.bounds
    rw [nextpropRound_of_reads hsize htag]
    cases tag.kind with
    | nop => exact Or.inr ⟨_, rfl, by omega, by omega, by omega⟩
    | _ => exact Or.inl ⟨_, rfl⟩
  · unfold nextpropRound
    rw [hrun]
    exact Or.inl ⟨_, rfl⟩

theorem nextprop_run {o : Nat} (ho : o < 2 ^ 31) : Loops.run (nextpropRound t) maxRounds o = some (nextprop t o) := by
  obtain ⟨r, hrun⟩ : ∃ r, Loops.run (nextpropRound t) maxRounds o = some r := by
    refine Loops.exists_run (I := fun offset => offset < 2 ^ 31) (fun offset => (2 ^ 31 - offset).toNat)
      (fun offset hlt => ?_) (by omega) (by unfold maxRounds; omega)
    rcases nextpropRound_cases hsize offset hlt with ⟨r, hr⟩ | ⟨offset', hround, hlt', hon, -⟩
    · exact Or.inl ⟨r, hr⟩
    · exact Or.inr ⟨offset', hround, hlt', by omega⟩
  rw [nextprop, hrun]
  rfl

theorem nextprop_of_returns {o : Nat} {r : Int} (ho : o < 2 ^ 31) (h : Returns (nextpropRound t) o r) :
    nextprop t o = r := Returns.unique ⟨maxRounds, nextprop_run hsize ho⟩ h

/-- A `FDT_NOP` is passed by. -/
theorem nextprop_nop (h : t.block.Reads p) (hkind : p.kind = .nop) : nextprop t p.off = nextprop t p.next := by
  have hbounds := h.bounds
  refine nextprop_of_returns hsize (by omega) (Loops.returns_of_inl ?_ ⟨maxRounds, nextprop_run hsize (by omega)⟩)
  rw [nextpropRound_of_reads hsize h, hkind]

theorem nextprop_prop (h : t.block.Reads p) (hkind : p.kind = .prop) : nextprop t p.off = p.off := by
  have hbounds := h.bounds
  refine nextprop_of_returns hsize (by omega) (Loops.returns_of_inr ?_)
  rw [nextpropRound_of_reads hsize h, hkind]

/-- The error behind the last property. -/
def propertiesEnd (stop : Tag) : Int := if stop.kind = .fin then fdtErrBadstructure else fdtErrNotfound

theorem nextprop_stop (h : t.block.Reads p) (hkind : p.kind ≠ .prop ∧ p.kind ≠ .nop) :
    nextprop t p.off = propertiesEnd p := by
  have hbounds := h.bounds
  refine nextprop_of_returns hsize (by omega) (Loops.returns_of_inr ?_)
  rw [nextpropRound_of_reads hsize h]
  unfold propertiesEnd
  cases hk : p.kind with
  | prop => exact absurd hk hkind.1
  | nop => exact absurd hk hkind.2
  | _ => rfl

/-! ## The search for a name -/

/-- The tags of a node before its first subnode, or its end. -/
def Own (tags : List Tag) : Prop := ∀ tag ∈ tags, tag.kind = .prop ∨ tag.kind = .nop

/-- What the search for a name finds among the tags. -/
def foundAmong (t : Fdt) (name namelen : Nat) (own : List Tag) (stop : Tag) : FoundProperty :=
  match own.find? (t.isNamed name namelen) with
  | some p => .ok (fdtOffsetPtrOf t p.off, (t.block.propLen p.off : Int), (p.off : Int))
  | none   => .error (propertiesEnd stop)

theorem getPropertyRound_prop (h : t.block.Reads p) (hkind : p.kind = .prop) (ho : p.off % 4 = 0)
    (name namelen : Nat) :
    getPropertyRound t name namelen p.off =
      if fdtStringEq t (toInt32 (t.block.nameoff p.off)) name namelen then
        .inr (.ok (fdtOffsetPtrOf t p.off, (t.block.propLen p.off : Int), (p.off : Int)))
      else .inl (nextprop t p.next) := by
  have hbounds := h.bounds
  have hnameoff : wrap32 (fdtOffsetPtrOf t p.off + 8) = wrap32 (t.ptr + (t.offDtStruct + (p.off + 8))) :=
    fdtOffsetPtrOf_add (by omega) 8
  unfold getPropertyRound
  rw [if_pos (Int.natCast_nonneg _), fdtGetPropertyByOffset_of_reads hsize h hkind ho]
  dsimp only
  rw [hnameoff, fdt32LdAligned_block, ← Block.nameoff, fdtNextPropertyOffset,
    fdtCheckPropOffset_of_reads hsize h hkind ho, if_neg (Int.not_lt.2 (Int.natCast_nonneg _))]

theorem getProperty_run (ht : Probed t) {name namelen : Nat} (hname : name < 2 ^ 32) (hlen : namelen < 2 ^ 32)
    {o e : Nat} {own : List Tag} {stop : Tag} (hown : Own own) (hstop : stop.kind ≠ .prop ∧ stop.kind ≠ .nop)
    (ho : o % 4 = 0) (hwalk : Walk t.block o (own ++ [stop]) e) :
    Loops.run (getPropertyRound t name namelen) (own.length + 1) (nextprop t o) =
      some (foundAmong t name namelen own stop) := by
  induction own generalizing o with
  | nil =>
    obtain ⟨rfl, hreads, -⟩ := Walk.cons_iff.1 hwalk
    have hneg : propertiesEnd stop < 0 := by
      unfold propertiesEnd
      split <;> decide
    apply Loops.run_succ_of_inr
    unfold getPropertyRound
    rw [nextprop_stop hsize hreads hstop, if_neg (Int.not_le.2 hneg)]
    rfl
  | cons p own ih =>
    obtain ⟨rfl, hreads, hrest⟩ := Walk.cons_iff.1 hwalk
    have hown' : Own own := fun tag htag => hown tag (List.mem_cons_of_mem p htag)
    have hrest := ih hown' hreads.bounds.2.1 hrest
    unfold foundAmong
    rcases hown p List.mem_cons_self with hkind | hkind
    · have hround := getPropertyRound_prop hsize hreads hkind ho name namelen
      have heq := fdtStringEq_iff ht (show t.block.nameoff p.off < 2 ^ 32 from bigEndian_lt _ _) hname hlen
      rw [nextprop_prop hsize hreads hkind]
      by_cases hat : t.NameAt (t.block.nameoff p.off) name namelen
      · have hnamed : t.isNamed name namelen p = true := by simp [Fdt.isNamed, hkind, hat]
        rw [List.find?_cons_of_pos hnamed]
        apply Loops.run_succ_of_inr
        rw [hround, if_pos (heq.2 hat)]
      · have hnamed : ¬ t.isNamed name namelen p = true := by simp [Fdt.isNamed, hat]
        rw [List.find?_cons_of_neg hnamed]
        refine (Loops.run_succ_of_inl ?_ _).trans hrest
        rw [hround, if_neg fun h => hat (heq.1 h)]
    · have hnamed : ¬ t.isNamed name namelen p = true := by simp [Fdt.isNamed, hkind]
      rw [nextprop_nop hsize hreads hkind, List.find?_cons_of_neg hnamed]
      exact Loops.run_mono hrest (Nat.le_succ _)

/-- **`fdt_getprop` returns the value of the node's first property of the name**, and its length. -/
theorem fdtGetpropNamelen_eq (ht : Probed t) {name namelen : Nat} (hname : name < 2 ^ 32) (hlen : namelen < 2 ^ 32)
    {n stop : Tag} {own : List Tag} {e : Nat} (hn : t.block.Reads n) (hkind : n.kind = .beginNode)
    (haligned : n.off % 4 = 0) (hown : Own own)
    (hstop : stop.kind ≠ .prop ∧ stop.kind ≠ .nop) (hwalk : Walk t.block n.next (own ++ [stop]) e) :
    fdtGetpropNamelen t n.off name namelen =
      match own.find? (t.isNamed name namelen) with
      | some p => .ok (t.valuePtr p.off, (t.block.propLen p.off : Int))
      | none   => .error (propertiesEnd stop) := by
  have hbounds := hn.bounds
  have hle := hwalk.le
  have hend : e ≤ t.block.size + 3 := by
    obtain ⟨-, hreads, rfl⟩ := Walk.concat_iff.1 hwalk
    exact hreads.bounds.2.2.1
  have hfirst : fdtFirstPropertyOffset t n.off = nextprop t n.next := by
    unfold fdtFirstPropertyOffset
    rw [fdtCheckNodeOffset_of_reads hsize hn hkind haligned]
    dsimp only
    rw [if_neg (Int.not_lt.2 (Int.natCast_nonneg _))]
  have hrun : Loops.run (getPropertyRound t name namelen) (own.length + 1) (nextprop t n.next) = _ :=
    getProperty_run hsize ht hname hlen hown hstop hbounds.2.1 hwalk
  have hrounds : own.length + 1 ≤ maxRounds := by
    rw [List.length_append] at hle
    unfold maxRounds
    omega
  unfold fdtGetpropNamelen fdtGetPropertyNamelen
  rw [hfirst, Loops.run_mono hrun hrounds, Option.getD_some]
  unfold foundAmong
  cases hfind : own.find? (t.isNamed name namelen) with
  | none => rfl
  | some p =>
    have hoff : p.off < 2 ^ 31 := by
      have hmem := hwalk.mem_bounds (List.mem_append_left _ (List.mem_of_find?_eq_some hfind))
      have hreads := (hwalk.reads (List.mem_append_left _ (List.mem_of_find?_eq_some hfind))).bounds
      omega
    dsimp only
    rw [propData_eq hoff]

end

end RiscvOs

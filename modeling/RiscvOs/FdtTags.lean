import RiscvOs.FdtHeader
/-!
# Tags of the structure block (`libfdt/fdt.c`)

`fdt_next_tag` reads the tag at an offset and says where the next one is.  The bytes it may read are those of
`Fdt.block`; what stands there is `Block.Reads`, and `fdt_next_tag` returns that, or `FDT_END` with an error
(`fdtNextTag_cases`).  A `Walk` is a sequence of tags, each behind the one before.
-/
namespace RiscvOs

def fdtBeginNode : Nat := 0x1

def fdtEndNode : Nat := 0x2

def fdtProp : Nat := 0x3

def fdtNop : Nat := 0x4

def fdtEnd : Nat := 0x9

/-- `FDT_TAGALIGN`. -/
def fdtTagAlign (x : Nat) : Nat := wrap32 (x + 4 - 1) / 4 * 4

/-- `fdt_offset_ptr_`. -/
def fdtOffsetPtrOf (t : Fdt) (offset : Int) : Nat := wrap32 (t.ptr + t.offDtStruct + toUint32 offset)

def fdtOffsetPtr (t : Fdt) (offset : Int) (len : Nat) : Option Nat :=
  let uoffset := toUint32 offset
  let absoffset := wrap32 (uoffset + t.offDtStruct)
  if offset < 0 then none
  else if absoffset < uoffset ∨ wrap32 (absoffset + len) < absoffset ∨ wrap32 (absoffset + len) > t.totalsize then none
  else if t.version ≥ 0x11 ∧ (wrap32 (uoffset + len) < uoffset ∨ wrap32 (uoffset + len) > t.sizeDtStruct) then none
  else some (fdtOffsetPtrOf t offset)

/-- `// skip name`, for so many rounds: the offset behind the `NUL`, or `none` when `p` is `NULL`. -/
def skipName (t : Fdt) : (rounds : Nat) → (offset : Int) → Option Int
  | 0, _               => none
  | rounds + 1, offset =>
    match fdtOffsetPtr t offset 1 with
    | none   => none
    | some p => if t.mem p ≠ 0 then skipName t rounds (offset + 1) else some (offset + 1)

/-- `offset` behind the length and the value of a property, and behind its realignment. -/
def skipProp (t : Fdt) (offset : Int) (len : Nat) : Int :=
  let offset := wrap32 (toUint32 offset + (12 - 4) + len)
  if t.version < 0x10 ∧ len ≥ 8 ∧ sub32 offset len % 8 ≠ 0 then toInt32 (offset + 4) else toInt32 offset

/-- The `switch` of `fdt_next_tag`, with `offset` behind the tag: `none` returns `FDT_END`. -/
def skipTag (t : Fdt) (tag : Nat) (offset : Int) : Option Int :=
  if tag = fdtBeginNode then skipName t (2 ^ 31 - offset.toNat) offset
  else if tag = fdtProp then
    match fdtOffsetPtr t offset 4 with
    | none      => none
    | some lenp =>
      let len := fdt32LdAligned t.mem lenp
      let sum := wrap32 (len + toUint32 offset)
      if intMax ≤ sum ∨ sum < toUint32 offset then none else some (skipProp t offset len)
  else if tag = fdtEnd ∨ tag = fdtEndNode ∨ tag = fdtNop then some offset
  else none

/-- `fdt_next_tag`: the tag, and `*nextoffset`. -/
def fdtNextTag (t : Fdt) (startoffset : Int) : Nat × Int :=
  match fdtOffsetPtr t startoffset 4 with
  | none      => (fdtEnd, fdtErrTruncated)
  | some tagp =>
    let tag := fdt32LdAligned t.mem tagp
    match skipTag t tag (startoffset + 4) with
    | none        => (fdtEnd, fdtErrBadstructure)
    | some offset =>
      match fdtOffsetPtr t startoffset (toUint32 (offset - startoffset)) with
      | none   => (fdtEnd, fdtErrBadstructure)
      | some _ => (tag, toInt32 (fdtTagAlign (toUint32 offset)))

/-! ## The bytes of the structure block -/

/-- The bytes that `fdt_offset_ptr` lets through, as far as they go. -/
structure Block where
  bytes : Nat → BitVec 8
  size : Nat
  /-- Before version 16 a value of 8 bytes or more is aligned to 8. -/
  realigned : Bool

def Fdt.block (t : Fdt) : Block where
  bytes i := t.byte (t.offDtStruct + i)
  size := if 0x11 ≤ t.version then min (t.totalsize - t.offDtStruct) t.sizeDtStruct else t.totalsize - t.offDtStruct
  realigned := t.version < 0x10

/-- An offset in the block is an `int`, and so is the next. -/
theorem Probed.block_size {t : Fdt} (h : Probed t) : t.block.size + 4 ≤ 2 ^ 31 := by
  have hheader := le_fdtHeaderSize t
  have hstruct := h.struct
  have hsmall := h.small
  unfold intMax at hsmall
  unfold Fdt.block
  dsimp only
  split_ifs <;> omega

section

variable {t : Fdt}

theorem fdtOffsetPtr_of_neg {offset : Int} (h : offset < 0) (len : Nat) : fdtOffsetPtr t offset len = none := by
  unfold fdtOffsetPtr
  exact if_pos h

/-- **`fdt_offset_ptr` lets through what lies in the block.** -/
theorem fdtOffsetPtr_eq {o len : Nat} (ho : o < 2 ^ 31) (hpos : 0 < len) (hlen : len < 2 ^ 32) :
    fdtOffsetPtr t o len = if o + len ≤ t.block.size then some (wrap32 (t.ptr + (t.offDtStruct + o))) else none := by
  have hstruct : t.offDtStruct < 2 ^ 32 := t.header_lt 8
  have htotal : t.totalsize < 2 ^ 32 := t.header_lt 4
  have hsize : t.sizeDtStruct < 2 ^ 32 := t.header_lt 36
  have hunsigned : toUint32 (o : Int) = o := toUint32_natCast (by omega)
  have hptr : fdtOffsetPtrOf t o = wrap32 (t.ptr + (t.offDtStruct + o)) := by
    rw [fdtOffsetPtrOf, hunsigned, Nat.add_assoc]
  unfold fdtOffsetPtr
  rw [hunsigned, hptr, if_neg (Int.not_lt.2 (Int.natCast_nonneg o))]
  unfold Fdt.block wrap32
  dsimp only
  split_ifs <;> first | rfl | omega

/-- The word behind a pointer into the block. -/
theorem fdt32LdAligned_block (o : Nat) :
    fdt32LdAligned t.mem (wrap32 (t.ptr + (t.offDtStruct + o))) = bigEndian t.block.bytes o := by
  rw [fdt32LdAligned_eq, Fdt.buffer_at]
  rfl

theorem mem_block (o : Nat) : t.mem (wrap32 (t.ptr + (t.offDtStruct + o))) = t.block.bytes o := rfl

end

/-! ## Tags -/

inductive TagKind where
  | beginNode
  | endNode
  | prop
  | nop
  | fin
deriving DecidableEq, Repr

def TagKind.tag : TagKind → Nat
  | beginNode => fdtBeginNode
  | endNode   => fdtEndNode
  | prop      => fdtProp
  | nop       => fdtNop
  | fin       => fdtEnd

theorem TagKind.tag_inj : ∀ {kind kind' : TagKind}, kind.tag = kind'.tag → kind = kind' := by
  intro kind kind'
  cases kind <;> cases kind' <;> decide

/-- A tag, where it stands, and where the next one does. -/
structure Tag where
  kind : TagKind
  off : Nat
  next : Nat
deriving DecidableEq, Repr

namespace Block

variable (k : Block)

def propLen (o : Nat) : Nat := bigEndian k.bytes (o + 4)

/-- What realigns the value of the property at `o`. -/
def padding (o : Nat) : Nat := if k.realigned = true ∧ 8 ≤ k.propLen o ∧ (o + 12) % 8 ≠ 0 then 4 else 0

/-- A tag of this kind at `o` ends at `e` with all that belongs to it. -/
def Ends (o e : Nat) : TagKind → Prop
  | .beginNode => ∃ l, IsLeast {i | k.bytes (o + 4 + i) = 0} l ∧ e = o + 4 + l + 1
  | .prop      => e = o + 12 + k.propLen o + k.padding o
  | _          => e = o + 4

/-- The tag stands in the block, which holds all of it. -/
structure Reads (tag : Tag) : Prop where
  word : bigEndian k.bytes tag.off = tag.kind.tag
  ends : ∃ e ≤ k.size, k.Ends tag.off e tag.kind ∧ tag.next = (e + 3) / 4 * 4

variable {k} {o e : Nat} {kind : TagKind}

theorem Ends.unique {e' : Nat} (h : k.Ends o e kind) (h' : k.Ends o e' kind) : e = e' := by
  cases kind
  case beginNode =>
    obtain ⟨l, hl, rfl⟩ := h
    obtain ⟨l', hl', rfl⟩ := h'
    rw [hl.unique hl']
  all_goals exact Eq.trans h (Eq.symm h')

theorem Ends.le (h : k.Ends o e kind) : o + 4 ≤ e := by
  cases kind
  case beginNode =>
    obtain ⟨l, -, rfl⟩ := h
    omega
  case prop =>
    rw [Ends] at h
    omega
  all_goals exact Nat.le_of_eq (Eq.symm h)

theorem Reads.unique {tag tag' : Tag} (h : k.Reads tag) (h' : k.Reads tag') (hoff : tag.off = tag'.off) :
    tag = tag' := by
  obtain ⟨hword, e, -, he, hnext⟩ := h
  obtain ⟨hword', e', -, he', hnext'⟩ := h'
  have hkind : tag.kind = tag'.kind := TagKind.tag_inj (by rw [← hword, ← hword', hoff])
  rw [hoff, hkind] at he
  have hnexts : tag.next = tag'.next := by rw [hnext, hnext', he.unique he']
  cases tag
  cases tag'
  simp only at hoff hkind hnexts
  rw [hoff, hkind, hnexts]

/-- A tag is a word at least, and the next one is where the words are. -/
theorem Reads.bounds {tag : Tag} (h : k.Reads tag) :
    tag.off + 4 ≤ tag.next ∧ tag.next % 4 = 0 ∧ tag.next ≤ k.size + 3 ∧ tag.off + 4 ≤ k.size := by
  obtain ⟨e, hsize, he, hnext⟩ := h.ends
  have hle := he.le
  omega

end Block

section

variable {t : Fdt}

theorem skipName_cases : ∀ {rounds o : Nat}, o + rounds = 2 ^ 31 → t.block.size < 2 ^ 31 →
    (∃ l, IsLeast {i | t.block.bytes (o + i) = 0} l ∧ o + l + 1 ≤ t.block.size ∧
        skipName t rounds o = some ((o + l + 1 : Nat) : Int)) ∨
      (∀ l, t.block.bytes (o + l) = 0 → t.block.size < o + l + 1) ∧ skipName t rounds o = none
  | 0, o, ho, hsize => by
    refine Or.inr ⟨fun l _ => ?_, rfl⟩
    omega
  | rounds + 1, o, ho, hsize => by
    rw [skipName, fdtOffsetPtr_eq (by omega) (by decide) (by decide)]
    by_cases hin : o + 1 ≤ t.block.size
    · rw [if_pos hin]
      dsimp only
      by_cases h0 : t.block.bytes o = 0
      · have hp : t.mem (wrap32 (t.ptr + (t.offDtStruct + o))) = 0 := h0
        rw [if_neg (not_not.2 hp)]
        exact Or.inl ⟨0, ⟨h0, fun i _ => Nat.zero_le i⟩, hin, rfl⟩
      · have hp : t.mem (wrap32 (t.ptr + (t.offDtStruct + o))) ≠ 0 := h0
        rw [if_pos hp]
        have hrounds : o + 1 + rounds = 2 ^ 31 := by omega
        rcases skipName_cases hrounds hsize with ⟨l, hl, hle, hrun⟩ | ⟨hnone, hrun⟩
        · refine Or.inl ⟨l + 1, ⟨?_, ?_⟩, by omega, ?_⟩
          · have hnul : t.block.bytes (o + 1 + l) = 0 := hl.1
            rwa [Nat.add_assoc, Nat.add_comm 1 l] at hnul
          · rintro (_ | i) hi
            · exact absurd hi h0
            · have hnul : t.block.bytes (o + (i + 1)) = 0 := hi
              rw [Nat.add_comm i 1, ← Nat.add_assoc] at hnul
              exact Nat.succ_le_succ (hl.2 hnul)
          · rw [show o + (l + 1) + 1 = o + 1 + l + 1 by omega]
            exact hrun
        · refine Or.inr ⟨?_, hrun⟩
          rintro (_ | l) hl
          · exact absurd hl h0
          · have hlt := hnone l (by rwa [Nat.add_assoc, Nat.add_comm 1 l])
            omega
    · rw [if_neg hin]
      refine Or.inr ⟨fun l _ => ?_, rfl⟩
      omega

theorem skipProp_emod {o : Nat} (hsum : t.block.propLen o + (o + 4) < intMax) :
    skipProp t ((o + 4 : Nat) : Int) (t.block.propLen o) % (2 ^ 32 : Int) =
      ((o + 12 + t.block.propLen o + t.block.padding o : Nat) : Int) := by
  have hint : ∀ x : Nat, x < 2 ^ 32 → toInt32 x % (2 ^ 32 : Int) = (x : Int) := by
    intro x hx
    unfold toInt32
    split <;> omega
  have hold : t.block.realigned = true ↔ t.version < 0x10 := by simp [Fdt.block]
  unfold intMax at hsum
  have hbehind : wrap32 (toUint32 ((o + 4 : Nat) : Int) + (12 - 4) + t.block.propLen o) =
      o + 12 + t.block.propLen o := by
    rw [toUint32_natCast (by omega), wrap32_of_lt (by omega)]
  have hstart : sub32 (o + 12 + t.block.propLen o) (t.block.propLen o) = o + 12 := by
    rw [sub32_of_le (by omega) (by omega)]
    omega
  unfold skipProp Block.padding
  rw [hbehind]
  dsimp only
  rw [hstart]
  by_cases hpad : t.version < 0x10 ∧ 8 ≤ t.block.propLen o ∧ (o + 12) % 8 ≠ 0
  · rw [if_pos hpad, if_pos ⟨hold.2 hpad.1, hpad.2⟩, hint _ (by omega)]
  · rw [if_neg hpad, if_neg fun h => hpad ⟨hold.1 h.1, h.2⟩, hint _ (by omega)]
    simp

theorem skipTag_prop {o : Nat} (hword : o + 4 ≤ t.block.size) (hsize : t.block.size < 2 ^ 31) :
    (∃ e offset, t.block.Ends o e .prop ∧ e < 2 ^ 32 ∧ skipTag t fdtProp (o + 4) = some offset ∧
        offset % (2 ^ 32 : Int) = e) ∨
      (∀ e, t.block.Ends o e .prop → t.block.size < e) ∧ skipTag t fdtProp (o + 4) = none := by
  have hstart : (o : Int) + 4 = ((o + 4 : Nat) : Int) := rfl
  have hlen : t.block.propLen o < 2 ^ 32 := bigEndian_lt _ _
  unfold skipTag
  rw [if_neg (by decide), if_pos rfl, hstart, fdtOffsetPtr_eq (by omega) (by decide) (by decide),
    toUint32_natCast (by omega)]
  by_cases hlenp : o + 4 + 4 ≤ t.block.size
  · rw [if_pos hlenp]
    dsimp only
    rw [fdt32LdAligned_block, ← Block.propLen]
    by_cases hsum : intMax ≤ wrap32 (t.block.propLen o + (o + 4)) ∨ wrap32 (t.block.propLen o + (o + 4)) < o + 4
    · rw [if_pos hsum]
      refine Or.inr ⟨fun e he => ?_, rfl⟩
      rw [Block.Ends] at he
      unfold wrap32 intMax at hsum
      omega
    · rw [if_neg hsum]
      have hlt : t.block.propLen o + (o + 4) < intMax := by
        unfold wrap32 intMax at hsum
        unfold intMax
        omega
      have hpad : t.block.padding o ≤ 4 := by
        unfold Block.padding
        split <;> omega
      unfold intMax at hlt
      exact Or.inl ⟨_, _, rfl, by omega, rfl, skipProp_emod hlt⟩
  · rw [if_neg hlenp]
    refine Or.inr ⟨fun e he => ?_, rfl⟩
    rw [Block.Ends] at he
    omega

/-- Behind a tag that is all there, or at no tag. -/
theorem skipTag_cases {o : Nat} (hword : o + 4 ≤ t.block.size) (hsize : t.block.size < 2 ^ 31) :
    (∃ kind e offset, bigEndian t.block.bytes o = kind.tag ∧ t.block.Ends o e kind ∧ e < 2 ^ 32 ∧
        skipTag t (bigEndian t.block.bytes o) (o + 4) = some offset ∧ offset % (2 ^ 32 : Int) = e) ∨
      (∀ kind e, bigEndian t.block.bytes o = kind.tag → t.block.Ends o e kind → t.block.size < e) ∧
        skipTag t (bigEndian t.block.bytes o) (o + 4) = none := by
  have hstart : (o : Int) + 4 = ((o + 4 : Nat) : Int) := rfl
  generalize hw : bigEndian t.block.bytes o = word
  by_cases hprop : word = fdtProp
  · rw [hprop]
    rcases skipTag_prop hword hsize with ⟨e, offset, he, hlt, hrun, hmod⟩ | ⟨hnone, hrun⟩
    · exact Or.inl ⟨.prop, e, offset, rfl, he, hlt, hrun, hmod⟩
    · refine Or.inr ⟨fun kind e hkind he => ?_, hrun⟩
      obtain rfl : TagKind.prop = kind := TagKind.tag_inj hkind
      exact hnone e he
  unfold skipTag
  by_cases hbegin : word = fdtBeginNode
  · rw [if_pos hbegin, hstart, Int.toNat_natCast]
    have hrounds : o + 4 + (2 ^ 31 - (o + 4)) = 2 ^ 31 := by omega
    rcases skipName_cases hrounds hsize with ⟨l, hl, hle, hrun⟩ | ⟨hnone, hrun⟩
    · exact Or.inl ⟨.beginNode, o + 4 + l + 1, _, hbegin, ⟨l, hl, rfl⟩, by omega, hrun, by omega⟩
    · refine Or.inr ⟨fun kind e hkind he => ?_, hrun⟩
      obtain rfl : kind = .beginNode := TagKind.tag_inj (hkind.symm.trans hbegin)
      obtain ⟨l, hl, rfl⟩ := he
      exact hnone l hl.1
  rw [if_neg hbegin, if_neg hprop]
  by_cases hrest : word = fdtEnd ∨ word = fdtEndNode ∨ word = fdtNop
  · rw [if_pos hrest]
    rcases hrest with hend | hend | hnop
    · exact Or.inl ⟨.fin, o + 4, _, hend, rfl, by omega, rfl, by omega⟩
    · exact Or.inl ⟨.endNode, o + 4, _, hend, rfl, by omega, rfl, by omega⟩
    · exact Or.inl ⟨.nop, o + 4, _, hnop, rfl, by omega, rfl, by omega⟩
  · rw [if_neg hrest]
    refine Or.inr ⟨fun kind e hkind => ?_, rfl⟩
    cases kind
    case beginNode => exact absurd hkind hbegin
    case prop => exact absurd hkind hprop
    case endNode => exact absurd (Or.inr (Or.inl hkind)) hrest
    case nop => exact absurd (Or.inr (Or.inr hkind)) hrest
    case fin => exact absurd (Or.inl hkind) hrest

/-- **`fdt_next_tag` returns the tag that stands there and where the next one does**, or `FDT_END` with an error when
none does. -/
theorem fdtNextTag_cases {o : Nat} (ho : o < 2 ^ 31) (hsize : t.block.size + 4 ≤ 2 ^ 31) :
    (∃ tag, t.block.Reads tag ∧ tag.off = o ∧ fdtNextTag t o = (tag.kind.tag, (tag.next : Int))) ∨
      (∀ tag, t.block.Reads tag → tag.off ≠ o) ∧
        fdtNextTag t o = (fdtEnd, if o + 4 ≤ t.block.size then fdtErrBadstructure else fdtErrTruncated) := by
  unfold fdtNextTag
  rw [fdtOffsetPtr_eq ho (by decide) (by decide)]
  by_cases hword : o + 4 ≤ t.block.size
  · rw [if_pos hword, if_pos hword]
    dsimp only
    rw [fdt32LdAligned_block]
    rcases skipTag_cases hword (by omega) with ⟨kind, e, offset, hkind, he, hlt, hskip, hmod⟩ | ⟨hnone, hskip⟩
    · have hle := he.le
      have hlen : toUint32 (offset - (o : Int)) = e - o := by
        unfold toUint32
        omega
      have hbehind : toUint32 offset = e := by
        unfold toUint32
        omega
      rw [hskip]
      dsimp only
      rw [hlen, hbehind, fdtOffsetPtr_eq ho (by omega) (by omega), Nat.add_sub_cancel' (by omega)]
      by_cases hin : e ≤ t.block.size
      · rw [if_pos hin]
        dsimp only
        have hnext : toInt32 (fdtTagAlign e) = (((e + 3) / 4 * 4 : Nat) : Int) := by
          have halign : fdtTagAlign e = (e + 3) / 4 * 4 := by
            unfold fdtTagAlign wrap32
            omega
          rw [halign, toInt32_of_lt (by omega)]
        rw [hnext, hkind]
        exact Or.inl ⟨⟨kind, o, (e + 3) / 4 * 4⟩, ⟨hkind, e, hin, he, rfl⟩, rfl, rfl⟩
      · rw [if_neg hin]
        refine Or.inr ⟨?_, rfl⟩
        rintro tag ⟨hword', e', hin', he', -⟩ rfl
        have hsame : tag.kind = kind := TagKind.tag_inj (hword'.symm.trans hkind)
        rw [hsame] at he'
        exact hin (he.unique he' ▸ hin')
    · rw [hskip]
      refine Or.inr ⟨?_, rfl⟩
      rintro tag ⟨hword', e', hin', he', -⟩ rfl
      exact absurd hin' (Nat.not_le.2 (hnone _ _ hword' he'))
  · rw [if_neg hword, if_neg hword]
    refine Or.inr ⟨fun tag htag hoff => hword ?_, rfl⟩
    rw [← hoff]
    exact htag.bounds.2.2.2

theorem fdtNextTag_of_reads {tag : Tag} (h : t.block.Reads tag) (hsize : t.block.size + 4 ≤ 2 ^ 31) :
    fdtNextTag t tag.off = (tag.kind.tag, (tag.next : Int)) := by
  have hbounds := h.bounds
  rcases fdtNextTag_cases (t := t) (o := tag.off) (by omega) hsize with ⟨tag', h', hoff, hrun⟩ | ⟨hnone, -⟩
  · rw [hrun, h'.unique h hoff]
  · exact absurd rfl (hnone tag h)

theorem fdtNextTag_of_neg {offset : Int} (h : offset < 0) : fdtNextTag t offset = (fdtEnd, fdtErrTruncated) := by
  unfold fdtNextTag
  rw [fdtOffsetPtr_of_neg h]

/-- At every offset a tag is read, or none stands there. -/
theorem fdtNextTag_total {offset : Int} (hlt : offset < 2 ^ 31) (hsize : t.block.size + 4 ≤ 2 ^ 31) :
    (∃ tag : Tag, t.block.Reads tag ∧ (tag.off : Int) = offset ∧
        fdtNextTag t offset = (tag.kind.tag, (tag.next : Int))) ∨
      (∀ tag, t.block.Reads tag → (tag.off : Int) ≠ offset) ∧ ∃ err < 0, fdtNextTag t offset = (fdtEnd, err) := by
  by_cases hneg : offset < 0
  · exact Or.inr ⟨fun tag _ hoff => by omega, _, by decide, fdtNextTag_of_neg hneg⟩
  obtain ⟨o, rfl⟩ := Int.eq_ofNat_of_zero_le (Int.not_lt.1 hneg)
  rcases fdtNextTag_cases (by omega : o < 2 ^ 31) hsize with ⟨tag, htag, rfl, hrun⟩ | ⟨hnone, hrun⟩
  · exact Or.inl ⟨tag, htag, rfl, hrun⟩
  · refine Or.inr ⟨fun tag htag hoff => hnone tag htag (Int.ofNat.inj hoff), _, ?_, hrun⟩
    split <;> decide

end

/-- **`fdt_next_tag` succeeds exactly at the tags that are all there**, and returns the tag and where the next one is;
at every other offset, negative ones included, it returns `FDT_END` and an error. -/
theorem fdtNextTag_reads_iff (t : Fdt) (offset : Int) (hlt : offset < 2 ^ 31) (hsize : t.block.size + 4 ≤ 2 ^ 31) :
    (0 ≤ (fdtNextTag t offset).2 ↔ ∃ tag, t.block.Reads tag ∧ (tag.off : Int) = offset) ∧
      (∀ tag : Tag, (tag.off : Int) = offset →
        (fdtNextTag t offset = (tag.kind.tag, (tag.next : Int)) ↔ t.block.Reads tag)) ∧
      ((∀ tag, t.block.Reads tag → (tag.off : Int) ≠ offset) → ∃ err < 0, fdtNextTag t offset = (fdtEnd, err)) := by
  rcases fdtNextTag_total hlt hsize with ⟨tag, htag, rfl, hrun⟩ | ⟨hnone, err, herr, hrun⟩
  · refine ⟨iff_of_true ?_ ⟨tag, htag, rfl⟩, fun tag' hoff => ?_, fun hnone => absurd rfl (hnone tag htag)⟩
    · rw [hrun]
      exact Int.natCast_nonneg _
    · constructor
      · intro h
        rw [hrun, Prod.mk.injEq] at h
        have hkind : tag.kind = tag'.kind := TagKind.tag_inj h.1
        have hnext : tag.next = tag'.next := Int.ofNat.inj h.2
        have hsame : tag = tag' := by
          have hoffs : tag.off = tag'.off := (Int.ofNat.inj hoff).symm
          cases tag
          cases tag'
          simp only at hkind hnext hoffs
          rw [hkind, hnext, hoffs]
        exact hsame ▸ htag
      · intro h
        rw [hrun, htag.unique h (Int.ofNat.inj hoff).symm]
  · refine ⟨iff_of_false ?_ ?_, fun tag hoff => iff_of_false (fun h => ?_) fun h => hnone tag h hoff, fun _ =>
      ⟨err, herr, hrun⟩⟩
    · rw [hrun]
      exact Int.not_le.2 herr
    · rintro ⟨tag, htag, hoff⟩
      exact hnone tag htag hoff
    · rw [hrun, Prod.mk.injEq] at h
      have hnext : err = (tag.next : Int) := h.2
      omega

/-- The property of `smallTree`, and an offset in front of its tags. -/
theorem fdtNextTag_reads_iff_smallTree :
    ((0 ≤ (fdtNextTag smallTree 16).2 ↔ ∃ tag, smallTree.block.Reads tag ∧ (tag.off : Int) = 16) ∧
      (∀ tag : Tag, (tag.off : Int) = 16 →
        (fdtNextTag smallTree 16 = (tag.kind.tag, (tag.next : Int)) ↔ smallTree.block.Reads tag)) ∧
      ((∀ tag, smallTree.block.Reads tag → (tag.off : Int) ≠ 16) →
        ∃ err < 0, fdtNextTag smallTree 16 = (fdtEnd, err))) ∧
    ∃ err < 0, fdtNextTag smallTree (-4) = (fdtEnd, err) :=
  ⟨fdtNextTag_reads_iff smallTree 16 (by decide) smallTree_probed.block_size,
    (fdtNextTag_reads_iff smallTree (-4) (by decide) smallTree_probed.block_size).2.2 fun _ _ hoff => by omega⟩

/-! ## Sequences of tags -/

/-- The tags from `o` up to `e`, each where the one before says. -/
inductive Walk (k : Block) : Nat → List Tag → Nat → Prop where
  | nil (o : Nat) : Walk k o [] o
  | cons {tag : Tag} {tags : List Tag} {e : Nat} (reads : k.Reads tag) (rest : Walk k tag.next tags e) :
    Walk k tag.off (tag :: tags) e

namespace Walk

variable {k : Block} {o e e' : Nat} {tag : Tag} {tags tags' : List Tag}

theorem cons_iff : Walk k o (tag :: tags) e ↔ tag.off = o ∧ k.Reads tag ∧ Walk k tag.next tags e := by
  constructor
  · rintro ⟨_⟩
    exact ⟨rfl, by assumption, by assumption⟩
  · rintro ⟨rfl, hreads, hrest⟩
    exact .cons hreads hrest

theorem append_iff : ∀ {tags : List Tag} {o : Nat},
    Walk k o (tags ++ tags') e ↔ ∃ m, Walk k o tags m ∧ Walk k m tags' e
  | [], o => by
    constructor
    · exact fun h => ⟨o, .nil o, h⟩
    · rintro ⟨m, ⟨_⟩, h⟩
      exact h
  | tag :: tags, o => by
    rw [List.cons_append, cons_iff, append_iff]
    simp only [cons_iff]
    constructor
    · rintro ⟨hoff, hreads, m, hwalk, hrest⟩
      exact ⟨m, ⟨hoff, hreads, hwalk⟩, hrest⟩
    · rintro ⟨m, ⟨hoff, hreads, hwalk⟩, hrest⟩
      exact ⟨hoff, hreads, m, hwalk, hrest⟩

theorem nil_iff : Walk k o [] e ↔ o = e := by
  constructor
  · rintro ⟨_⟩
    rfl
  · rintro rfl
    exact .nil o

theorem concat_iff : Walk k o (tags ++ [tag]) e ↔ Walk k o tags tag.off ∧ k.Reads tag ∧ tag.next = e := by
  simp only [append_iff, cons_iff, nil_iff]
  constructor
  · rintro ⟨m, hwalk, rfl, hreads, hnext⟩
    exact ⟨hwalk, hreads, hnext⟩
  · rintro ⟨hwalk, hreads, hnext⟩
    exact ⟨tag.off, hwalk, rfl, hreads, hnext⟩

theorem reads (h : Walk k o tags e) (htag : tag ∈ tags) : k.Reads tag := by
  induction h with
  | nil => exact absurd htag List.not_mem_nil
  | cons hreads _ ih =>
    cases List.mem_cons.1 htag with
    | inl heq => exact heq ▸ hreads
    | inr hmem => exact ih hmem

theorem le (h : Walk k o tags e) : o + 4 * tags.length ≤ e := by
  induction h with
  | nil => exact Nat.le_refl _
  | cons hreads _ ih =>
    have hbounds := hreads.bounds
    rw [List.length_cons]
    omega

theorem mem_bounds (h : Walk k o tags e) (htag : tag ∈ tags) : o ≤ tag.off ∧ tag.next ≤ e := by
  induction h with
  | nil => exact absurd htag List.not_mem_nil
  | cons hreads hrest ih =>
    have hbounds := hreads.bounds
    have hle := hrest.le
    cases List.mem_cons.1 htag with
    | inl heq =>
      subst heq
      omega
    | inr hmem =>
      have hmem := ih hmem
      omega

theorem aligned (h : Walk k o tags e) (ho : o % 4 = 0) : (∀ tag ∈ tags, tag.off % 4 = 0) ∧ e % 4 = 0 := by
  induction h with
  | nil => exact ⟨fun _ htag => absurd htag List.not_mem_nil, ho⟩
  | cons hreads _ ih =>
    obtain ⟨hall, he⟩ := ih hreads.bounds.2.1
    exact ⟨List.forall_mem_cons.2 ⟨ho, hall⟩, he⟩

end Walk

/-- The tags of `smallTree` inside its root. -/
def smallTreeInner : List Tag := [⟨.beginNode, 8, 16⟩, ⟨.prop, 16, 32⟩, ⟨.endNode, 32, 36⟩]

theorem smallTree_root : smallTree.block.Reads ⟨.beginNode, 0, 8⟩ where
  word := by decide
  ends := ⟨5, by decide, ⟨0, ⟨by decide, fun i _ => Nat.zero_le i⟩, rfl⟩, rfl⟩

theorem smallTree_node : smallTree.block.Reads ⟨.beginNode, 8, 16⟩ where
  word := by decide
  ends := by
    refine ⟨14, by decide, ⟨1, ⟨by decide, fun i hi => Nat.pos_of_ne_zero ?_⟩, rfl⟩, rfl⟩
    rintro rfl
    exact absurd (show smallTree.block.bytes 12 = 0 from hi) (by decide)

theorem smallTree_prop : smallTree.block.Reads ⟨.prop, 16, 32⟩ where
  word := by decide
  ends := ⟨31, by decide, show 31 = 16 + 12 + smallTree.block.propLen 16 + smallTree.block.padding 16 by decide, rfl⟩

theorem smallTree_walk : Walk smallTree.block 0
    (⟨.beginNode, 0, 8⟩ :: (smallTreeInner ++ [⟨.endNode, 36, 40⟩]) ++ [⟨.fin, 40, 44⟩]) 44 := by
  have hclose : smallTree.block.Reads ⟨.endNode, 32, 36⟩ := ⟨by decide, 36, by decide, rfl, rfl⟩
  have hrootClose : smallTree.block.Reads ⟨.endNode, 36, 40⟩ := ⟨by decide, 40, by decide, rfl, rfl⟩
  have hfin : smallTree.block.Reads ⟨.fin, 40, 44⟩ := ⟨by decide, 44, by decide, rfl, rfl⟩
  exact .cons smallTree_root (.cons smallTree_node (.cons smallTree_prop (.cons hclose
    (.cons hrootClose (.cons hfin (.nil 44))))))

end RiscvOs

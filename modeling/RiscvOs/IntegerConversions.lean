import RiscvOs.FormatGrammar
import RiscvOs.NumberReads
/-!
# What the integer conversions lose

Read back with `strtol`, the text of a conversion gives the argument as the type that the length field names, but for
four cases: a negative `signed char`, a sign that zeros have pushed out of the buffer, digits that the `#` flag takes
off, and half a mark.  A field is as wide as asked, unless it is padded with zeros to more than 32 characters.
-/
namespace RiscvOs

open NtoaBuffer (signWidth)

section

variable (flags : Flags) (width precision : Nat) (va : VaList) (c : BitVec 8)

theorem natAbs_signedArg_le (word : BitVec 32) : (signedArg word flags).natAbs ≤ 2 ^ 31 := by
  have hword := word.isLt
  have hshort := (word.setWidth 16).toInt_lt
  have hshort' := (word.setWidth 16).le_toInt
  have hlong : (toInt32 word.toNat).natAbs ≤ 2 ^ 31 := by
    unfold toInt32
    split <;> omega
  unfold signedArg
  split
  · exact hlong
  · split
    · omega
    · split
      · omega
      · exact hlong

theorem absArg_eq {value : Int} (h : value.natAbs ≤ 2 ^ 31) : absArg value = value.natAbs := by
  unfold absArg toUint32
  split <;> omega

theorem length_numeralText_le {value : Nat} (h : value < 2 ^ 32) :
    (numeralText value 10 flags).length ≤ 10 := by
  unfold numeralText
  split
  · split <;> decide
  · rw [Numerals.write, List.length_map, List.length_reverse]
    exact (Nat.digits_length_le_iff (by decide) value).2 (Nat.lt_trans h (by decide))

/-- The sign of a negative number found a place. -/
theorem paddedLen_lt_iff {len : Nat} (hlen : len < ntoaBufferSize) :
    paddedLen len precision (signWidth true width flags) flags < ntoaBufferSize ↔
      (flags.left = false → precision < ntoaBufferSize ∧ (flags.zeropad = true → width ≤ ntoaBufferSize)) := by
  unfold paddedLen signWidth
  unfold ntoaBufferSize at *
  cases flags.left with
  | true => simpa using hlen
  | false =>
    cases flags.zeropad with
    | true =>
      by_cases hw : width = 0
      · simp [hw]
        omega
      · simp [hw]
        omega
    | false =>
      simp
      omega

/-- The text of `d` and `i`. -/
theorem integerText_signed (hc : c = ch 'i' ∨ c = ch 'd') (hll : flags.longLong = false) :
    (integerText flags width precision va c).1 =
      ntoaText (signedArg (va 0) flags).natAbs (signedArg (va 0) flags < 0) 10 precision width
        (integerFlags c flags) := by
  have hbase : integerBase c = 10 := by
    rcases hc with rfl | rfl <;> rfl
  have hno : ¬ (integerFlags c flags).longLong = true := fun h => Bool.false_ne_true (hll.symm.trans h)
  unfold integerText
  dsimp only
  rw [if_neg hno, if_pos hc, hbase]
  exact congrArg (ntoaText · _ _ _ _ _) (absArg_eq (natAbs_signedArg_le flags (va 0)))

/-- The text of the other integer conversions. -/
theorem integerText_unsigned (hc : ¬ (c = ch 'i' ∨ c = ch 'd')) (hll : flags.longLong = false) :
    (integerText flags width precision va c).1 =
      ntoaText (unsignedArg (va 0) flags) false (integerBase c) precision width (integerFlags c flags) := by
  have hno : ¬ (integerFlags c flags).longLong = true := fun h => Bool.false_ne_true (hll.symm.trans h)
  unfold integerText
  dsimp only
  rw [if_neg hno, if_neg hc]
  rfl

/-- What `d` and `i` print reads back exactly when zeros leave a negative number its sign. -/
theorem strtol_integerText_signed_iff (hc : c = ch 'i' ∨ c = ch 'd') (hll : flags.longLong = false) :
    strtol 10 (integerText flags width precision va c).1 = signedArg (va 0) flags ↔
      (signedArg (va 0) flags < 0 → flags.left = false →
        precision < ntoaBufferSize ∧ (flags.zeropad = true ∧ flags.precision = false → width ≤ ntoaBufferSize)) := by
  have hhash : (integerFlags c flags).hash = false := by
    rcases hc with rfl | rfl <;> exact Bool.and_false _
  have habs := natAbs_signedArg_le flags (va 0)
  rw [integerText_signed flags width precision va c hc hll,
    strtol_ntoaText_of_no_hash (by decide) (by decide) (by omega) precision width _ _ hhash]
  generalize signedArg (va 0) flags = value at habs
  by_cases hneg : value < 0
  · have hlen : (numeralText value.natAbs 10 (integerFlags c flags)).length < ntoaBufferSize :=
      Nat.lt_of_le_of_lt (length_numeralText_le (integerFlags c flags) (by omega)) (by decide)
    have hroom := paddedLen_lt_iff (integerFlags c flags) width precision hlen
    have hzero : (integerFlags c flags).zeropad = true ↔ flags.zeropad = true ∧ flags.precision = false := by
      rw [show (integerFlags c flags).zeropad = (flags.zeropad && !flags.precision) from rfl]
      simp
    rw [hzero] at hroom
    rw [decide_eq_true hneg]
    by_cases h : paddedLen (numeralText value.natAbs 10 (integerFlags c flags)).length precision
        (signWidth true width (integerFlags c flags)) (integerFlags c flags) < ntoaBufferSize
    · rw [if_pos ⟨rfl, h⟩]
      exact ⟨fun _ _ => hroom.1 h, fun _ => by omega⟩
    · rw [if_neg (fun hand => h hand.2)]
      exact ⟨fun heq => absurd heq (by omega), fun hall => absurd (hroom.2 (hall hneg)) h⟩
  · rw [decide_eq_false hneg, if_neg (fun h => Bool.false_ne_true h.1)]
    exact ⟨fun _ h => absurd h hneg, fun _ => by omega⟩

theorem integerBase_cases : integerBase c = 16 ∨ integerBase c = 8 ∨ integerBase c = 2 ∨ integerBase c = 10 := by
  unfold integerBase
  split_ifs <;> simp

theorem unsignedArg_lt (word : BitVec 32) : unsignedArg word flags < 2 ^ 32 := by
  have hword := word.isLt
  unfold unsignedArg
  split
  · exact hword
  · split
    · omega
    · split
      · omega
      · exact hword

/-- What the other conversions print reads back exactly when the mark of the `#` flag fits. -/
theorem strtol_integerText_unsigned_iff (hc : ¬ (c = ch 'i' ∨ c = ch 'd')) (hll : flags.longLong = false) :
    strtol (integerBase c) (integerText flags width precision va c).1 = unsignedArg (va 0) flags ↔
      (flags.hash = true ∧ integerBase c ≠ 10 ∧ unsignedArg (va 0) flags ≠ 0 →
        MarkFits (integerBase c) (numeralText (unsignedArg (va 0) flags) (integerBase c) (integerFlags c flags)).length
          precision width (integerFlags c flags)) := by
  have hbase : 1 < integerBase c ∧ integerBase c ≤ 16 := by
    rcases integerBase_cases c with h | h | h | h <;> rw [h] <;> decide
  have hsign : (integerFlags c flags).plus = false ∧ (integerFlags c flags).space = false := by
    rw [not_or] at hc
    unfold integerFlags
    simp [hc.1, hc.2]
  have hhash : (integerFlags c flags).hash = true ↔ flags.hash = true ∧ integerBase c ≠ 10 := by
    unfold integerFlags
    simp
  have hvalue := unsignedArg_lt flags (va 0)
  rw [integerText_unsigned flags width precision va c hc hll]
  generalize unsignedArg (va 0) flags = value at hvalue
  by_cases hmark : (integerFlags c flags).hash = true ∧ value ≠ 0
  · rw [strtol_ntoaText_of_hash_iff hbase.1 hbase.2 hvalue precision width _ hmark.1 hmark.2 hsign.1 hsign.2]
    have hall := hhash.1 hmark.1
    exact ⟨fun h _ => h, fun h => h ⟨hall.1, hall.2, hmark.2⟩⟩
  · refine ⟨fun _ h => absurd ⟨hhash.2 ⟨h.1, h.2.1⟩, h.2.2⟩ hmark, fun _ => ?_⟩
    apply strtol_ntoaText_plain hbase.1 hbase.2 hvalue
    unfold Flags.forValue
    split
    · rfl
    next hne => simpa using fun h => hmark ⟨h, hne⟩

end

/-! ## The type of the argument -/

/-- The width of the type that a length field names, from `char` to `intmax_t`. -/
def Length.bits : Length → Nat
  | .omitted => 32
  | .l       => 32
  | .ll      => 64
  | .h       => 16
  | .hh      => 8
  | .t       => 32
  | .z       => 32
  | .j       => 64

/-- The argument as a `signed char`, `short`, `int` or `long`. -/
def Length.signedValue (length : Length) (word : BitVec 32) : Int := (word.setWidth length.bits).toInt

/-- The argument as an `unsigned char`, `unsigned short`, `unsigned int` or `unsigned long`. -/
def Length.unsignedValue (length : Length) (word : BitVec 32) : Nat := (word.setWidth length.bits).toNat

/-- `va_arg` takes one word. -/
def Length.OneWord (length : Length) : Prop := length ≠ .ll ∧ length ≠ .j

structure Flags.NoLength (flags : Flags) : Prop where
  char : flags.char = false
  short : flags.short = false
  long : flags.long = false
  longLong : flags.longLong = false

section

variable {length : Length} {flags : Flags}

theorem Flags.NoLength.foldl_set (h : flags.NoLength) (fs : List FlagChar) :
    (fs.foldl FlagChar.set flags).NoLength := by
  induction fs generalizing flags with
  | nil => exact h
  | cons c fs ih =>
    have hset : (c.set flags).NoLength := by
      cases c <;> exact ⟨h.char, h.short, h.long, h.longLong⟩
    exact ih hset

/-- Only the length field sets the flags of a length. -/
theorem exists_noLength (d : Directive) (va : VaList) :
    ∃ flags : Flags, flags.NoLength ∧ (d.fields va).flags = d.length.set flags := by
  have hflags : (d.flags.foldl FlagChar.set {}).NoLength := Flags.NoLength.foldl_set ⟨rfl, rfl, rfl, rfl⟩ d.flags
  have hwidth : (d.width.apply (d.flags.foldl FlagChar.set {}) va).flags.NoLength := by
    cases d.width with
    | star =>
      unfold Width.apply starWidth
      dsimp only
      split
      · exact ⟨hflags.char, hflags.short, hflags.long, hflags.longLong⟩
      · exact hflags
    | omitted => exact hflags
    | number ds => exact hflags
  refine ⟨_, ?_, rfl⟩
  cases d.precision with
  | omitted => exact hwidth
  | empty => exact ⟨hwidth.char, hwidth.short, hwidth.long, hwidth.longLong⟩
  | number ds => exact ⟨hwidth.char, hwidth.short, hwidth.long, hwidth.longLong⟩
  | star => exact ⟨hwidth.char, hwidth.short, hwidth.long, hwidth.longLong⟩

theorem longLong_set (h : flags.NoLength) (hone : length.OneWord) : (length.set flags).longLong = false := by
  cases length with
  | ll => exact absurd rfl hone.1
  | j => exact absurd rfl hone.2
  | omitted => exact h.longLong
  | l => exact h.longLong
  | h => exact h.longLong
  | hh => exact h.longLong
  | t => exact h.longLong
  | z => exact h.longLong

theorem toInt32_toNat (word : BitVec 32) : toInt32 word.toNat = word.toInt := by
  have hword := word.isLt
  unfold toInt32
  rw [BitVec.toInt_eq_toNat_cond]
  split <;> split <;> omega

/-- The code takes the argument as the type that is named, but for `hh`: there it is an unsigned `char`. -/
theorem signedArg_set (h : flags.NoLength) (hone : length.OneWord) (word : BitVec 32) :
    signedArg word (length.set flags) =
      if length = .hh then (length.unsignedValue word : Int) else length.signedValue word := by
  cases length with
  | ll => exact absurd rfl hone.1
  | j => exact absurd rfl hone.2
  | h => simp [signedArg, Length.set, Length.signedValue, Length.bits, h.char, h.long]
  | hh => simp [signedArg, Length.set, Length.unsignedValue, Length.bits, h.long]
  | omitted => simp [signedArg, Length.set, Length.signedValue, Length.bits, h.char, h.short, h.long, toInt32_toNat]
  | l => simp [signedArg, Length.set, Length.signedValue, Length.bits, toInt32_toNat]
  | t => simp [signedArg, Length.set, Length.signedValue, Length.bits, toInt32_toNat]
  | z => simp [signedArg, Length.set, Length.signedValue, Length.bits, toInt32_toNat]

theorem unsignedArg_set (h : flags.NoLength) (hone : length.OneWord) (word : BitVec 32) :
    unsignedArg word (length.set flags) = length.unsignedValue word := by
  cases length with
  | ll => exact absurd rfl hone.1
  | j => exact absurd rfl hone.2
  | h => simp [unsignedArg, Length.set, Length.unsignedValue, Length.bits, h.char, h.long]
  | hh => simp [unsignedArg, Length.set, Length.unsignedValue, Length.bits, h.long]
  | omitted => simp [unsignedArg, Length.set, Length.unsignedValue, Length.bits, h.char, h.short, h.long]
  | l => simp [unsignedArg, Length.set, Length.unsignedValue, Length.bits]
  | t => simp [unsignedArg, Length.set, Length.unsignedValue, Length.bits]
  | z => simp [unsignedArg, Length.set, Length.unsignedValue, Length.bits]

/-- A `signed char` is not its bits read as an unsigned one, if it is negative. -/
theorem unsignedValue_eq_signedValue_iff (word : BitVec 32) :
    (length.unsignedValue word : Int) = length.signedValue word ↔ 0 ≤ length.signedValue word := by
  have hbits := (word.setWidth length.bits).isLt
  unfold Length.unsignedValue Length.signedValue
  rw [BitVec.toInt_eq_toNat_cond]
  split <;> omega

end

section

variable (mem : Bytes) (d : Directive) (va : VaList)

theorem text_of_isInteger (hint : IsInteger d.specifier) :
    d.text mem va =
      integerText (d.fields va).flags (d.fields va).width (d.fields va).precision (d.fields va).va d.specifier :=
  if_pos hint

/-- **`d` and `i` read back** as the type that the length names exactly when zeros leave a negative number its sign;
with `hh` exactly when it is not negative. -/
theorem signed_reads_back_iff (hc : d.specifier = ch 'i' ∨ d.specifier = ch 'd') (hone : d.length.OneWord) :
    strtol 10 (d.text mem va).1 = d.length.signedValue ((d.fields va).va 0) ↔
      (d.length.signedValue ((d.fields va).va 0) < 0 → d.length ≠ .hh ∧
        ((d.fields va).flags.left = false → (d.fields va).precision < 32 ∧
          ((d.fields va).flags.zeropad = true ∧ (d.fields va).flags.precision = false →
            (d.fields va).width ≤ 32))) := by
  have hint : IsInteger d.specifier := by
    rcases hc with h | h <;> rw [h] <;> decide
  obtain ⟨flags, hno, hflags⟩ := exists_noLength d va
  have hll : (d.fields va).flags.longLong = false := by
    rw [hflags]
    exact longLong_set hno hone
  have harg := signedArg_set hno hone ((d.fields va).va 0)
  rw [← hflags] at harg
  have hback := strtol_integerText_signed_iff (d.fields va).flags (d.fields va).width (d.fields va).precision
    (d.fields va).va d.specifier hc hll
  rw [text_of_isInteger mem d va hint]
  rw [harg] at hback
  by_cases hhh : d.length = .hh
  · -- an unsigned `char` always reads back, as what it is
    rw [if_pos hhh] at hback
    rw [hback.2 fun hneg => by omega, unsignedValue_eq_signedValue_iff]
    constructor
    · intro hle hneg
      omega
    · intro h
      by_contra hneg
      exact (h (Int.not_le.1 hneg)).1 hhh
  · rw [if_neg hhh] at hback
    rw [hback]
    exact ⟨fun h hneg => ⟨hhh, h hneg⟩, fun h hneg => (h hneg).2⟩

/-- `"%033d"`. -/
def zeroPadded : Directive :=
  { flags := [.zero], width := .number [⟨3, by decide⟩, ⟨3, by decide⟩], specifier := ch 'd' }

/-- `"%hhd"`. -/
def charDirective : Directive := { length := .hh, specifier := ch 'd' }

/-- The sign of -5 is lost behind the zeros, and as a `char` it is 251. -/
theorem signed_reads_back_iff_minusFive :
    (strtol 10 (zeroPadded.text (fun _ => 0) fun _ => -5).1 = -5 ↔
        ((-5 : Int) < 0 → Length.omitted ≠ .hh ∧ (false = false → 0 < 32 ∧ (true = true ∧ false = false → 33 ≤ 32)))) ∧
      (strtol 10 (charDirective.text (fun _ => 0) fun _ => -5).1 = -5 ↔
        ((-5 : Int) < 0 → Length.hh ≠ .hh ∧ (false = false → 0 < 32 ∧ (false = true ∧ false = false → 0 ≤ 32)))) :=
  ⟨signed_reads_back_iff (fun _ => 0) zeroPadded (fun _ => -5) (Or.inr rfl) ⟨by decide, by decide⟩,
    signed_reads_back_iff (fun _ => 0) charDirective (fun _ => -5) (Or.inr rfl) ⟨by decide, by decide⟩⟩

/-- **`u`, `x`, `X`, `o` and `b` read back** as the type that the length names exactly when the mark of the `#` flag
fits. -/
theorem unsigned_reads_back_iff (hint : IsInteger d.specifier)
    (hc : ¬ (d.specifier = ch 'i' ∨ d.specifier = ch 'd')) (hone : d.length.OneWord) :
    strtol (integerBase d.specifier) (d.text mem va).1 = d.length.unsignedValue ((d.fields va).va 0) ↔
      ((d.fields va).flags.hash = true ∧ integerBase d.specifier ≠ 10 ∧
          d.length.unsignedValue ((d.fields va).va 0) ≠ 0 →
        MarkFits (integerBase d.specifier)
          (numeralText (d.length.unsignedValue ((d.fields va).va 0)) (integerBase d.specifier)
            (integerFlags d.specifier (d.fields va).flags)).length
          (d.fields va).precision (d.fields va).width (integerFlags d.specifier (d.fields va).flags)) := by
  obtain ⟨flags, hno, hflags⟩ := exists_noLength d va
  have hll : (d.fields va).flags.longLong = false := by
    rw [hflags]
    exact longLong_set hno hone
  have harg := unsignedArg_set hno hone ((d.fields va).va 0)
  rw [← hflags] at harg
  have hback := strtol_integerText_unsigned_iff (d.fields va).flags (d.fields va).width (d.fields va).precision
    (d.fields va).va d.specifier hc hll
  rw [text_of_isInteger mem d va hint]
  rwa [harg] at hback

end

/-- `"%#4x"`. -/
def markedDirective : Directive := { flags := [.hash], width := .number [⟨4, by decide⟩], specifier := ch 'x' }

/-- `"%#4x"` takes two digits off `0x1234`. -/
theorem unsigned_reads_back_iff_fourDigits :
    strtol 16 (markedDirective.text (fun _ => 0) fun _ => 0x1234).1 = (0x1234 : Nat) ↔
      (true = true ∧ integerBase (ch 'x') ≠ 10 ∧ 0x1234 ≠ 0 →
        MarkFits 16 (numeralText 0x1234 16 (integerFlags (ch 'x') { hash := true })).length 0 4
          (integerFlags (ch 'x') { hash := true })) :=
  unsigned_reads_back_iff (fun _ => 0) markedDirective (fun _ => 0x1234) (by decide) (by decide) ⟨by decide, by decide⟩

/-! ## Widths -/

namespace NtoaBuffer

variable (buf : NtoaBuffer)

theorem push_len (c : BitVec 8) : (buf.push c).len = min (buf.len + 1) ntoaBufferSize := by
  have hfits : buf.len ≤ ntoaBufferSize := buf.fits
  by_cases hroom : buf.len < ntoaBufferSize
  · rw [buf.push_len_of_room hroom, Nat.min_eq_left hroom]
  · rw [buf.push_of_full hroom]
    omega

/-- The mark takes no fewer places than were made for it. -/
theorem len_le_mark_unpad (base prec width : Nat) (flags : Flags) :
    buf.len ≤ ((buf.unpad base prec width flags).mark base flags).len := by
  have hfits : buf.len ≤ ntoaBufferSize := buf.fits
  have hkept : buf.len ≤ keptLen base buf.len prec width flags + 1 ∨
      base = 16 ∧ buf.len ≤ keptLen base buf.len prec width flags + 2 := by
    unfold keptLen
    split
    · split
      next h2 =>
        simp only [Bool.and_eq_true, decide_eq_true_eq] at h2
        exact Or.inr ⟨h2.2, by omega⟩
      · exact Or.inl (by omega)
    · exact Or.inl (Nat.le_succ _)
  rw [mark_eq, push_len]
  by_cases htwo : base = 16 ∨ base = 2
  · rw [if_pos htwo, push_len, unpad_len]
    omega
  · rw [if_neg htwo, unpad_len]
    rcases hkept with h | ⟨h16, _⟩
    · omega
    · exact absurd (Or.inl h16) htwo

theorem sign_len (negative : Bool) (flags : Flags) :
    (buf.sign negative flags).len =
      if (negative || flags.plus || flags.space) = true then min (buf.len + 1) ntoaBufferSize else buf.len := by
  unfold sign
  cases negative with
  | true => exact buf.push_len _
  | false =>
    cases flags.plus with
    | true => exact buf.push_len _
    | false =>
      cases flags.space with
      | true => exact buf.push_len _
      | false => rfl

/-- The zeros, the mark and the sign together fill the width, as far as the buffer goes. -/
theorem min_width_le_format (negative : Bool) (base prec width : Nat) (flags : Flags) (hleft : flags.left = false)
    (hzero : flags.zeropad = true) : min width ntoaBufferSize ≤ (buf.format negative base prec width flags).len := by
  have hpadded : min (signWidth negative width flags) ntoaBufferSize ≤
      (buf.padLeading prec (signWidth negative width flags) flags).len := by
    rw [padLeading_len]
    unfold paddedLen
    rw [if_neg (Bool.eq_false_iff.1 hleft), if_pos hzero]
    omega
  unfold format
  dsimp only
  generalize hw : signWidth negative width flags = width' at hpadded
  have hhashed : min width' ntoaBufferSize ≤ (if flags.hash then
      ((buf.padLeading prec width' flags).unpad base prec width' flags).mark base flags
      else buf.padLeading prec width' flags).len := by
    split
    · exact Nat.le_trans hpadded (len_le_mark_unpad _ base prec width' flags)
    · exact hpadded
  rw [sign_len]
  unfold signWidth at hw
  rw [hleft, hzero] at hw
  cases hsign : (negative || flags.plus || flags.space) with
  | true =>
    have hone : width ≤ width' + 1 := by
      rw [← hw]
      split <;> omega
    rw [if_pos rfl]
    omega
  | false =>
    have hsame : width' = width := by
      rw [← hw, hsign]
      simp
    rw [if_neg Bool.false_ne_true]
    omega

end NtoaBuffer

theorem length_fieldText (cs : List (BitVec 8)) (width : Nat) (flags : Flags) :
    (fieldText cs width flags).length =
      if flags.left = false ∧ flags.zeropad = true then cs.length else max cs.length width := by
  unfold fieldText
  cases flags.left with
  | true =>
    simp
    omega
  | false =>
    cases flags.zeropad with
    | true => simp
    | false =>
      simp
      omega

/-- **A number is as wide as asked** unless zeros are to pad it beyond the buffer. -/
theorem width_le_ntoaText_iff (value : Nat) (negative : Bool) (base prec width : Nat) (flags : Flags) :
    width ≤ (ntoaText value negative base prec width flags).length ↔
      (flags.left = false ∧ flags.zeropad = true → width ≤ ntoaBufferSize) := by
  have hleft : (flags.forValue value).left = flags.left := by
    unfold Flags.forValue
    split <;> rfl
  have hzeropad : (flags.forValue value).zeropad = flags.zeropad := by
    unfold Flags.forValue
    split <;> rfl
  unfold ntoaText
  dsimp only
  rw [length_fieldText, hleft, hzeropad]
  by_cases hzero : flags.left = false ∧ flags.zeropad = true
  · have hfits := ((storedDigits value base (flags.forValue value)).format negative base prec width
      (flags.forValue value)).fits
    have hfills := (storedDigits value base (flags.forValue value)).min_width_le_format negative base prec width
      (flags.forValue value) (hleft.trans hzero.1) (hzeropad.trans hzero.2)
    unfold NtoaBuffer.len at hfills
    rw [if_pos hzero]
    constructor
    · intro h _
      exact Nat.le_trans h hfits
    · intro h
      have := h hzero
      omega
  · have hwidth : signWidth negative width (flags.forValue value) = width := by
      unfold NtoaBuffer.signWidth
      rw [hleft, hzeropad]
      cases hl : flags.left with
      | true => rfl
      | false =>
        cases hz : flags.zeropad with
        | true => exact absurd ⟨hl, hz⟩ hzero
        | false => simp
    rw [if_neg hzero, hwidth]
    exact ⟨fun _ h => absurd h hzero, fun _ => Nat.le_max_right _ _⟩

end RiscvOs

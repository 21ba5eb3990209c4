import RiscvOs.Numerals
import RiscvOs.NumberText
/-!
# Reading an integer back

`strtol` reads what `_ntoa_long` writes.  The `#` flag can spoil that: it takes digits off a number that fills its
width exactly, and leaves half a mark when one place is left in the buffer.  A negative number loses its sign when
zeros have filled the buffer.
-/
namespace RiscvOs

open Numerals (read Ends write)

def digitValue (c : BitVec 8) : Nat :=
  if 0x30 ≤ c.toNat ∧ c.toNat ≤ 0x39 then c.toNat - 0x30
  else if 0x61 ≤ c.toNat ∧ c.toNat ≤ 0x7a then c.toNat - 0x57
  else if 0x41 ≤ c.toNat ∧ c.toNat ≤ 0x5a then c.toNat - 0x37
  else 36

/-- The marks of the `#` flag: `0x`, `0X` and `0b`. -/
def Marked (base : Nat) (cs : List (BitVec 8)) : Prop :=
  cs[0]? = some (ch '0') ∧
    (base = 16 ∧ (cs[1]? = some (ch 'x') ∨ cs[1]? = some (ch 'X')) ∨ base = 2 ∧ cs[1]? = some (ch 'b'))

instance decidableMarked (base : Nat) (cs : List (BitVec 8)) : Decidable (Marked base cs) :=
  inferInstanceAs (Decidable (_ ∧ _))

def skipMark (base : Nat) (cs : List (BitVec 8)) : List (BitVec 8) := if Marked base cs then cs.drop 2 else cs

/-- What follows the sign. -/
def magnitude (base : Nat) (cs : List (BitVec 8)) : Nat := read digitValue base (skipMark base cs) 0

/-- The number a text stands for: spaces, a sign, a mark, and digits until something else comes. -/
def strtol (base : Nat) (cs : List (BitVec 8)) : Int :=
  let cs := cs.dropWhile (· = ch ' ')
  if cs[0]? = some (ch '-') then -(magnitude base cs.tail)
  else if cs[0]? = some (ch '+') then magnitude base cs.tail
  else magnitude base cs

theorem digitValue_digitChar {base : Nat} (hbase : base ≤ 16) (uppercase : Bool) :
    ∀ d < base, digitValue (digitChar uppercase d) = d := by
  intro d hd
  have hall : ∀ u : Bool, ∀ d < 16, digitValue (digitChar u d) = d := by decide
  exact hall uppercase d (Nat.lt_of_lt_of_le hd hbase)

theorem digitChar_zero (uppercase : Bool) : digitChar uppercase 0 = ch '0' := by
  cases uppercase <;> rfl

/-! ## Texts of digits and spaces -/

/-- Digits, and the spaces that pad them. -/
def Plain (base : Nat) (cs : List (BitVec 8)) : Prop := ∀ c ∈ cs, digitValue c < base ∨ c = ch ' '

section

variable {base : Nat} {cs ds : List (BitVec 8)}

theorem Plain.append (h : Plain base cs) (h' : Plain base ds) : Plain base (cs ++ ds) := by
  intro c hc
  cases List.mem_append.1 hc with
  | inl hc => exact h c hc
  | inr hc => exact h' c hc

theorem plain_replicate {c : BitVec 8} (h : digitValue c < base ∨ c = ch ' ') (n : Nat) :
    Plain base (List.replicate n c) := by
  intro d hd
  rw [List.eq_of_mem_replicate hd]
  exact h

theorem Plain.ne (h : Plain base cs) {c : BitVec 8} (hc : base ≤ digitValue c) (hsp : c ≠ ch ' ') (i : Nat) :
    cs[i]? ≠ some c := by
  intro hi
  cases h c (List.mem_of_getElem? hi) with
  | inl hlt => exact absurd hlt (Nat.not_lt.2 hc)
  | inr heq => exact hsp heq

theorem Plain.not_marked (h : Plain base cs) : ¬ Marked base cs := by
  rintro ⟨_, ⟨rfl, hx | hX⟩ | ⟨rfl, hb⟩⟩
  · exact h.ne (by decide) (by decide) 1 hx
  · exact h.ne (by decide) (by decide) 1 hX
  · exact h.ne (by decide) (by decide) 1 hb

theorem Plain.magnitude_eq (h : Plain base cs) : magnitude base cs = read digitValue base cs 0 := by
  unfold magnitude skipMark
  rw [if_neg h.not_marked]

theorem dropWhile_spaces (n : Nat) (cs : List (BitVec 8)) :
    (List.replicate n (ch ' ') ++ cs).dropWhile (· = ch ' ') = cs.dropWhile (· = ch ' ') := by
  induction n with
  | zero => rfl
  | succ n ih =>
    rw [List.replicate_succ, List.cons_append, List.dropWhile_cons_of_pos (by decide)]
    exact ih

/-- Padding on the left is skipped. -/
theorem strtol_spaces (n : Nat) (cs : List (BitVec 8)) :
    strtol base (List.replicate n (ch ' ') ++ cs) = strtol base cs := by
  unfold strtol
  rw [dropWhile_spaces]

theorem strtol_space (cs : List (BitVec 8)) : strtol base (ch ' ' :: cs) = strtol base cs := strtol_spaces 1 cs

theorem dropWhile_of_head {c : BitVec 8} (hc : c ≠ ch ' ') (cs : List (BitVec 8)) :
    (c :: cs).dropWhile (· = ch ' ') = c :: cs := List.dropWhile_cons_of_neg (by simpa using hc)

theorem strtol_minus (cs : List (BitVec 8)) : strtol base (ch '-' :: cs) = -(magnitude base cs) := by
  unfold strtol
  rw [dropWhile_of_head (by decide)]
  rfl

theorem strtol_plus (cs : List (BitVec 8)) : strtol base (ch '+' :: cs) = magnitude base cs := by
  unfold strtol
  rw [dropWhile_of_head (by decide)]
  rfl

/-- A text without a sign is read from its first character that is not a space. -/
theorem strtol_unsigned (hm : cs[0]? ≠ some (ch '-')) (hp : cs[0]? ≠ some (ch '+')) (hs : cs[0]? ≠ some (ch ' ')) :
    strtol base cs = magnitude base cs := by
  have hdrop : cs.dropWhile (· = ch ' ') = cs := by
    cases cs with
    | nil => rfl
    | cons c cs => exact dropWhile_of_head (fun h => hs (by rw [h]; rfl)) cs
  unfold strtol
  rw [hdrop, if_neg hm, if_neg hp]

/-- Digits, then spaces. -/
theorem strtol_digits (hle : base ≤ 16) (hcs : ∀ c ∈ cs, digitValue c < base) (n : Nat) :
    strtol base (cs ++ List.replicate n (ch ' ')) = read digitValue base (cs ++ List.replicate n (ch ' ')) 0 := by
  cases cs with
  | nil =>
    have hend : ∀ n, read digitValue base (List.replicate n (ch ' ')) 0 = 0 := by
      intro n
      cases n with
      | zero => rfl
      | succ n => exact Numerals.read_of_ends (Numerals.ends_cons (Nat.le_trans hle (by decide))) 0
    have hnil : strtol base (List.replicate n (ch ' ') ++ []) = strtol base [] := strtol_spaces n []
    rw [List.append_nil] at hnil
    rw [List.nil_append, hnil, hend]
    rfl
  | cons c cs =>
    have hplain : Plain base (c :: cs ++ List.replicate n (ch ' ')) :=
      Plain.append (fun d hd => Or.inl (hcs d hd)) (plain_replicate (Or.inr rfl) n)
    rw [strtol_unsigned, hplain.magnitude_eq]
    · exact hplain.ne (Nat.le_trans hle (by decide)) (by decide) 0
    · exact hplain.ne (Nat.le_trans hle (by decide)) (by decide) 0
    · intro h
      have hc := hcs c List.mem_cons_self
      rw [Option.some.inj (show some c = some (ch ' ') from h)] at hc
      exact absurd hc (Nat.not_lt.2 (Nat.le_trans hle (by decide)))

end

/-! ## The digits of a value and the zeros before them -/

theorem digitsFrom_eq {base : Nat} (hbase : 1 < base) (uppercase : Bool) : ∀ {room value : Nat} {cs : List (BitVec 8)},
    value ≠ 0 → value < base ^ room →
    digitsFrom uppercase base room value cs = write base (digitChar uppercase) value ++ cs
  | 0, value, _, h, hlt => by
    rw [Nat.pow_zero] at hlt
    exact absurd (Nat.lt_one_iff.1 hlt) h
  | room + 1, value, cs, h, hlt => by
    have hdigits : write base (digitChar uppercase) value =
        write base (digitChar uppercase) (value / base) ++ [digitChar uppercase (value % base)] := by
      unfold write
      rw [Nat.digits_def' hbase (Nat.pos_of_ne_zero h), List.reverse_cons, List.map_append, List.map_singleton]
    rw [digitsFrom, hdigits]
    by_cases hrest : value / base = 0
    · rw [if_neg (not_not.2 hrest), hrest, write, Nat.digits_zero]
      rfl
    · have hroom : value / base < base ^ room := by
        rw [Nat.pow_succ] at hlt
        exact Nat.div_lt_of_lt_mul (by rwa [Nat.mul_comm])
      rw [if_pos hrest, digitsFrom_eq hbase uppercase hrest hroom, List.append_assoc, List.singleton_append]

/-- The digits of a value as they are stored. -/
def numeralText (value base : Nat) (flags : Flags) : List (BitVec 8) :=
  if value = 0 then (if flags.precision then [] else [ch '0']) else write base (digitChar flags.uppercase) value

section

variable {base value : Nat} (hbase : 1 < base) (hle : base ≤ 16) (flags : Flags)

include hbase in
theorem storedDigits_chars (hv : value < base ^ ntoaBufferSize) :
    (storedDigits value base flags).chars = numeralText value base flags := by
  unfold storedDigits numeralText
  by_cases h : value = 0
  · subst h
    cases flags.precision with
    | true => rfl
    | false =>
      have hzero : digitsFrom flags.uppercase base ntoaBufferSize 0 [] = [ch '0'] := by
        rw [ntoaBufferSize, digitsFrom, Nat.zero_div, if_neg (not_not.2 rfl), Nat.zero_mod, digitChar_zero]
      exact hzero
  · rw [if_pos (by simp [h]), if_neg h]
    exact (digitsFrom_eq hbase _ h hv).trans (List.append_nil _)

include hle

theorem ends_spaces (n : Nat) : Ends digitValue base (List.replicate n (ch ' ')) := by
  cases n with
  | zero => exact Numerals.ends_nil
  | succ n => exact Numerals.ends_cons (Nat.le_trans hle (by decide))

include hbase

theorem digits_numeralText : ∀ c ∈ numeralText value base flags, digitValue c < base := by
  intro c hc
  unfold numeralText at hc
  split at hc
  · split at hc
    · cases hc
    · rw [List.mem_singleton.1 hc]
      exact Nat.lt_trans Nat.zero_lt_one hbase
  · obtain ⟨d, hd, rfl⟩ := List.mem_map.1 hc
    have hlt : d < base := Nat.digits_lt_base hbase (List.mem_reverse.1 hd)
    rw [digitValue_digitChar hle _ d hlt]
    exact hlt

theorem read_numeralText {rest : List (BitVec 8)} (hrest : Ends digitValue base rest) :
    read digitValue base (numeralText value base flags ++ rest) 0 = value := by
  unfold numeralText
  by_cases h : value = 0
  · rw [if_pos h, h]
    cases flags.precision with
    | true => exact Numerals.read_of_ends hrest 0
    | false =>
      exact (Numerals.read_zeros (by decide) (Nat.lt_trans Nat.zero_lt_one hbase) 1 rest).trans
        (Numerals.read_of_ends hrest 0)
  · rw [if_neg h]
    exact Numerals.read_write (digitValue_digitChar hle _) hbase value hrest

end

/-- The length of the number with its leading zeros. -/
def paddedLen (len prec width : Nat) (flags : Flags) : Nat :=
  if flags.left then len
  else if flags.zeropad then max len (min (max prec width) ntoaBufferSize)
  else max len (min prec ntoaBufferSize)

theorem le_paddedLen (len prec width : Nat) (flags : Flags) : len ≤ paddedLen len prec width flags := by
  unfold paddedLen
  split
  · exact Nat.le_refl _
  · split <;> exact Nat.le_max_left _ _

namespace NtoaBuffer

variable (buf : NtoaBuffer)

theorem pad_chars (n : Nat) :
    (buf.pad n).chars = List.replicate (min n ntoaBufferSize - buf.len) (ch '0') ++ buf.chars := by
  have hfits := buf.fits
  have hroom : buf.chars.length + (ntoaBufferSize - buf.chars.length) = ntoaBufferSize := by omega
  unfold pad
  dsimp only
  rw [zerosTo_eq, hroom]
  rfl

theorem padLeading_chars (prec width : Nat) (flags : Flags) :
    (buf.padLeading prec width flags).chars =
      List.replicate (paddedLen buf.len prec width flags - buf.len) (ch '0') ++ buf.chars := by
  unfold padLeading paddedLen
  cases flags.left with
  | true => simp
  | false =>
    cases flags.zeropad with
    | true =>
      have hlen : (buf.pad prec).len = (min prec ntoaBufferSize - buf.len) + buf.len := by
        unfold len
        rw [pad_chars, List.length_append, List.length_replicate]
        rfl
      simp only [Bool.false_eq_true, if_false, if_true]
      rw [pad_chars, pad_chars, hlen, ← List.append_assoc, List.replicate_append_replicate]
      congr 2
      omega
    | false =>
      simp only [Bool.false_eq_true, if_false]
      rw [pad_chars]
      congr 2
      omega

theorem padLeading_len (prec width : Nat) (flags : Flags) :
    (buf.padLeading prec width flags).len = paddedLen buf.len prec width flags := by
  have hle := le_paddedLen buf.len prec width flags
  unfold len at *
  rw [padLeading_chars, List.length_append, List.length_replicate]
  exact Nat.sub_add_cancel hle

theorem push_chars_of_room {c : BitVec 8} (h : buf.len < ntoaBufferSize) : (buf.push c).chars = c :: buf.chars := by
  exact congrArg chars (dif_pos h)

theorem push_of_full {c : BitVec 8} (h : ¬ buf.len < ntoaBufferSize) : buf.push c = buf := by
  exact dif_neg h

theorem sign_of_full (negative : Bool) (flags : Flags) (h : ¬ buf.len < ntoaBufferSize) :
    buf.sign negative flags = buf := by
  unfold sign
  simp only [buf.push_of_full h, ite_self]

end NtoaBuffer

theorem fieldText_spaces (cs : List (BitVec 8)) (width : Nat) (flags : Flags) :
    ∃ m n, fieldText cs width flags = List.replicate m (ch ' ') ++ (cs ++ List.replicate n (ch ' ')) := by
  unfold fieldText
  rw [List.append_assoc]
  split
  · split
    · exact ⟨_, _, rfl⟩
    · exact ⟨_, 0, rfl⟩
  · split
    · exact ⟨0, _, rfl⟩
    · exact ⟨0, 0, rfl⟩

/-- **Reading a signed number**: the sign counts if there was room for it. -/
theorem strtol_sign {base : Nat} (hle : base ≤ 16) (buf : NtoaBuffer) (hcs : ∀ c ∈ buf.chars, digitValue c < base)
    (negative : Bool) (flags : Flags) (n : Nat) :
    strtol base ((buf.sign negative flags).chars ++ List.replicate n (ch ' ')) =
      (if negative = true ∧ buf.len < ntoaBufferSize then
        -(read digitValue base (buf.chars ++ List.replicate n (ch ' ')) 0 : Int)
      else read digitValue base (buf.chars ++ List.replicate n (ch ' ')) 0) := by
  have hplain : Plain base (buf.chars ++ List.replicate n (ch ' ')) :=
    Plain.append (fun d hd => Or.inl (hcs d hd)) (plain_replicate (Or.inr rfl) n)
  by_cases hroom : buf.len < ntoaBufferSize
  · unfold NtoaBuffer.sign
    cases negative with
    | true =>
      rw [if_pos rfl, if_pos ⟨rfl, hroom⟩, buf.push_chars_of_room hroom, List.cons_append, strtol_minus,
        hplain.magnitude_eq]
    | false =>
      have hpos : ¬ (false = true ∧ buf.len < ntoaBufferSize) := fun h => Bool.false_ne_true h.1
      rw [if_neg Bool.false_ne_true, if_neg hpos]
      cases flags.plus with
      | true => rw [if_pos rfl, buf.push_chars_of_room hroom, List.cons_append, strtol_plus, hplain.magnitude_eq]
      | false =>
        rw [if_neg Bool.false_ne_true]
        cases flags.space with
        | true => rw [if_pos rfl, buf.push_chars_of_room hroom, List.cons_append, strtol_space, strtol_digits hle hcs]
        | false => rw [if_neg Bool.false_ne_true, strtol_digits hle hcs]
  · rw [buf.sign_of_full negative flags hroom, if_neg (fun h => hroom h.2), strtol_digits hle hcs]

theorem lt_pow_ntoaBufferSize {base value : Nat} (hbase : 1 < base) (hv : value < 2 ^ 32) :
    value < base ^ ntoaBufferSize := Nat.lt_of_lt_of_le hv (Nat.pow_le_pow_left hbase 32)

section

variable {base value : Nat} (hbase : 1 < base) (hle : base ≤ 16) (hv : value < 2 ^ 32) (prec width : Nat)
  (flags : Flags)

include hbase hv in
theorem paddedDigits_chars :
    ((storedDigits value base flags).padLeading prec width flags).chars =
      List.replicate (paddedLen (numeralText value base flags).length prec width flags -
        (numeralText value base flags).length) (ch '0') ++ numeralText value base flags := by
  have hchars := storedDigits_chars hbase flags (lt_pow_ntoaBufferSize hbase hv)
  rw [NtoaBuffer.padLeading_chars, NtoaBuffer.len, hchars]

include hbase hv in
theorem paddedDigits_len :
    ((storedDigits value base flags).padLeading prec width flags).len =
      paddedLen (numeralText value base flags).length prec width flags := by
  rw [NtoaBuffer.padLeading_len, NtoaBuffer.len, storedDigits_chars hbase flags (lt_pow_ntoaBufferSize hbase hv)]

include hbase in
theorem digitValue_zero_lt : digitValue (ch '0') < base := Nat.lt_trans Nat.zero_lt_one hbase

include hbase hle hv

theorem digits_paddedDigits :
    ∀ c ∈ ((storedDigits value base flags).padLeading prec width flags).chars, digitValue c < base := by
  intro c hc
  rw [paddedDigits_chars hbase hv] at hc
  cases List.mem_append.1 hc with
  | inl hc =>
    rw [List.eq_of_mem_replicate hc]
    exact digitValue_zero_lt hbase
  | inr hc => exact digits_numeralText hbase hle flags c hc

theorem read_paddedDigits (n : Nat) :
    read digitValue base (((storedDigits value base flags).padLeading prec width flags).chars ++
      List.replicate n (ch ' ')) 0 = value := by
  rw [paddedDigits_chars hbase hv, List.append_assoc,
    Numerals.read_zeros (by decide) (Nat.lt_trans Nat.zero_lt_one hbase),
    read_numeralText hbase hle flags (ends_spaces hle n)]

/-- **A number without a mark reads back**, but for a sign that found no room. -/
theorem strtol_ntoaText_of_no_hash (negative : Bool) (hhash : flags.hash = false) :
    strtol base (ntoaText value negative base prec width flags) =
      if negative = true ∧ paddedLen (numeralText value base flags).length prec
          (NtoaBuffer.signWidth negative width flags) flags < ntoaBufferSize then -(value : Int)
      else value := by
  have hflags : flags.forValue value = flags := by
    unfold Flags.forValue
    split
    · rw [← hhash]
    · rfl
  have hformat : (storedDigits value base flags).format negative base prec width flags =
      (((storedDigits value base flags).padLeading prec (NtoaBuffer.signWidth negative width flags) flags)).sign
        negative flags := by
    unfold NtoaBuffer.format
    dsimp only
    rw [hhash, if_neg Bool.false_ne_true]
  unfold ntoaText
  dsimp only
  rw [hflags]
  obtain ⟨m, n, htext⟩ := fieldText_spaces ((storedDigits value base flags).format negative base prec width flags).chars
    (NtoaBuffer.signWidth negative width flags) flags
  rw [htext, strtol_spaces, hformat, strtol_sign hle _ (digits_paddedDigits hbase hle hv prec _ flags),
    read_paddedDigits hbase hle hv prec _ flags, paddedDigits_len hbase hv]

end

/-- A number without sign or mark reads back. -/
theorem strtol_ntoaText_plain {base value : Nat} (hbase : 1 < base) (hle : base ≤ 16) (hv : value < 2 ^ 32)
    (prec width : Nat) (flags : Flags) (hhash : (flags.forValue value).hash = false) :
    strtol base (ntoaText value false base prec width flags) = value := by
  have hflags : (flags.forValue value).forValue value = flags.forValue value := by
    unfold Flags.forValue
    split <;> rfl
  have htext :
      ntoaText value false base prec width flags = ntoaText value false base prec width (flags.forValue value) := by
    unfold ntoaText
    rw [hflags]
  rw [htext, strtol_ntoaText_of_no_hash hbase hle hv prec width _ false hhash, if_neg (fun h => Bool.false_ne_true h.1)]

/-! ## The `#` flag -/

/-- The length that `// handle hash` leaves of a padded number. -/
def keptLen (base len prec width : Nat) (flags : Flags) : Nat :=
  if !flags.precision && len ≠ 0 && (len = prec || len = width) then
    if len - 1 ≠ 0 && base = 16 then len - 2 else len - 1
  else len

theorem keptLen_le (base len prec width : Nat) (flags : Flags) : keptLen base len prec width flags ≤ len := by
  unfold keptLen
  split
  · split
    · exact Nat.sub_le _ _
    · exact Nat.sub_le _ _
  · exact Nat.le_refl _

/-- **The mark fits**: every digit is kept, and a mark of two characters has both its places or none. -/
def MarkFits (base digits prec width : Nat) (flags : Flags) : Prop :=
  digits ≤ keptLen base (paddedLen digits prec width flags) prec width flags ∧
    ¬ ((base = 16 ∨ base = 2) ∧ keptLen base (paddedLen digits prec width flags) prec width flags + 1 = ntoaBufferSize)

instance decidableMarkFits (base digits prec width : Nat) (flags : Flags) :
    Decidable (MarkFits base digits prec width flags) := inferInstanceAs (Decidable (_ ∧ _))

namespace NtoaBuffer

variable (buf : NtoaBuffer)

theorem pop_chars : buf.pop.chars = buf.chars.drop 1 := List.drop_one.symm

theorem unpad_chars (base prec width : Nat) (flags : Flags) :
    (buf.unpad base prec width flags).chars = buf.chars.drop (buf.len - keptLen base buf.len prec width flags) := by
  have hpop : buf.pop.len = buf.len - 1 := List.length_tail
  unfold unpad keptLen
  rw [hpop]
  split
  next h =>
    have hpos : buf.len ≠ 0 := by
      simp only [Bool.and_eq_true, decide_eq_true_eq] at h
      exact h.1.2
    split
    next h2 =>
      have hmore : buf.len - 1 ≠ 0 := by
        simp only [Bool.and_eq_true, decide_eq_true_eq] at h2
        exact h2.1
      have htwo : buf.len - (buf.len - 2) = 2 := by omega
      rw [pop_chars, pop_chars, List.drop_drop, htwo]
    next =>
      have hone : buf.len - (buf.len - 1) = 1 := by omega
      rw [pop_chars, hone]
  next => rw [Nat.sub_self, List.drop_zero]

theorem unpad_len (base prec width : Nat) (flags : Flags) :
    (buf.unpad base prec width flags).len = keptLen base buf.len prec width flags := by
  have hle := keptLen_le base buf.len prec width flags
  have hlen : (buf.unpad base prec width flags).len = buf.len - (buf.len - keptLen base buf.len prec width flags) := by
    unfold len
    rw [unpad_chars, List.length_drop]
    rfl
  omega

theorem push_len_of_room {c : BitVec 8} (h : buf.len < ntoaBufferSize) : (buf.push c).len = buf.len + 1 := by
  unfold len
  rw [push_chars_of_room buf h, List.length_cons]

/-- The first character of the mark, if there is one. -/
theorem mark_eq (base : Nat) (flags : Flags) :
    buf.mark base flags = push (ch '0') (if base = 16 ∨ base = 2 then
      buf.push (if base = 16 then if flags.uppercase then ch 'X' else ch 'x' else ch 'b') else buf) := by
  unfold mark
  by_cases h16 : base = 16
  · rw [if_pos h16, if_pos (Or.inl h16), if_pos h16]
  · by_cases h2 : base = 2
    · rw [if_neg h16, if_pos h2, if_pos (Or.inr h2), if_neg h16]
    · rw [if_neg h16, if_neg h2, if_neg (not_or.2 ⟨h16, h2⟩)]

end NtoaBuffer

/-- A whole mark is skipped. -/
theorem strtol_of_marked {base : Nat} {cs : List (BitVec 8)} (h : Marked base cs) :
    strtol base cs = (read digitValue base (cs.drop 2) 0 : Int) := by
  have hhead : ∀ c, c ≠ ch '0' → cs[0]? ≠ some c := fun c hc heq => hc (Option.some.inj (heq.symm.trans h.1))
  rw [strtol_unsigned (hhead _ (by decide)) (hhead _ (by decide)) (hhead _ (by decide)), magnitude, skipMark, if_pos h]

/-- Half a mark is no digit. -/
theorem strtol_of_half {base : Nat} {c : BitVec 8} (hc : base ≤ digitValue c) (hletter : 0x41 ≤ c.toNat)
    (cs : List (BitVec 8)) : strtol base (c :: cs) = 0 := by
  have hne : ∀ d : BitVec 8, d.toNat < 0x41 → (c :: cs)[0]? ≠ some d := by
    intro d hd heq
    rw [Option.some.inj (show some c = some d from heq)] at hletter
    omega
  have hmark : ¬ Marked base (c :: cs) := fun h => hne _ (by decide) h.1
  rw [strtol_unsigned (hne _ (by decide)) (hne _ (by decide)) (hne _ (by decide)), magnitude, skipMark, if_neg hmark,
    Numerals.read_of_ends (Numerals.ends_cons hc)]
  rfl

/-- **Reading a marked number**: after half a mark nothing is read. -/
theorem strtol_mark {base : Nat} (hbase : 1 < base) (hle : base ≤ 16) (buf : NtoaBuffer)
    (hcs : ∀ c ∈ buf.chars, digitValue c < base) (flags : Flags) (n : Nat) :
    strtol base ((buf.mark base flags).chars ++ List.replicate n (ch ' ')) =
      if (base = 16 ∨ base = 2) ∧ buf.len + 1 = ntoaBufferSize then 0
      else (read digitValue base (buf.chars ++ List.replicate n (ch ' ')) 0 : Int) := by
  rw [buf.mark_eq]
  by_cases htwo : base = 16 ∨ base = 2
  · rw [if_pos htwo]
    generalize hc : (if base = 16 then if flags.uppercase then ch 'X' else ch 'x' else ch 'b') = c
    have hletter : 0x41 ≤ c.toNat ∧ base ≤ digitValue c ∧
        (base = 16 ∧ (c = ch 'x' ∨ c = ch 'X') ∨ base = 2 ∧ c = ch 'b') := by
      cases htwo with
      | inl h16 =>
        subst h16
        cases hup : flags.uppercase <;> rw [hup] at hc <;> subst hc <;> decide
      | inr h2 =>
        subst h2
        rw [if_neg (by decide)] at hc
        subst hc
        decide
    by_cases hfull : buf.len < ntoaBufferSize
    · have hlen := buf.push_len_of_room (c := c) hfull
      by_cases hlast : buf.len + 1 = ntoaBufferSize
      · rw [if_pos ⟨htwo, hlast⟩, (buf.push c).push_of_full (by omega), buf.push_chars_of_room hfull, List.cons_append,
          strtol_of_half hletter.2.1 hletter.1]
      · have hmarked : Marked base (ch '0' :: c :: buf.chars ++ List.replicate n (ch ' ')) := by
          refine ⟨rfl, ?_⟩
          rcases hletter.2.2 with ⟨h16, hx | hX⟩ | ⟨h2, hb⟩
          · exact Or.inl ⟨h16, Or.inl (congrArg some hx)⟩
          · exact Or.inl ⟨h16, Or.inr (congrArg some hX)⟩
          · exact Or.inr ⟨h2, congrArg some hb⟩
        rw [if_neg (fun h => hlast h.2), (buf.push c).push_chars_of_room (by omega), buf.push_chars_of_room hfull,
          strtol_of_marked hmarked]
        rfl
    · rw [if_neg (by omega), buf.push_of_full hfull, buf.push_of_full hfull, strtol_digits hle hcs]
  · rw [if_neg htwo, if_neg (fun h => htwo h.1)]
    by_cases hfull : buf.len < ntoaBufferSize
    · have hall : ∀ c ∈ ch '0' :: buf.chars, digitValue c < base := by
        intro c hc
        cases List.mem_cons.1 hc with
        | inl hc => rw [hc]; exact digitValue_zero_lt hbase
        | inr hc => exact hcs c hc
      have hz : digitValue (ch '0') = 0 := by decide
      have hzero := Numerals.read_zeros hz (Nat.lt_trans Nat.zero_lt_one hbase) 1
        (buf.chars ++ List.replicate n (ch ' '))
      rw [buf.push_chars_of_room hfull, strtol_digits hle hall]
      exact congrArg Nat.cast hzero
    · rw [buf.push_of_full hfull, strtol_digits hle hcs]

section

variable {base value : Nat} (hbase : 1 < base) (hle : base ≤ 16) (hv : value < 2 ^ 32) (prec width : Nat)
  (flags : Flags)

include hbase hle hv

/-- What is left of the padded digits reads back only if no digit has gone. -/
theorem read_unpadded_iff (hne : value ≠ 0) {k : Nat} (n : Nat) :
    read digitValue base (((storedDigits value base flags).padLeading prec width flags).chars.drop k ++
      List.replicate n (ch ' ')) 0 = value ↔
      (numeralText value base flags).length + k ≤ paddedLen (numeralText value base flags).length prec width flags := by
  have hgrow := le_paddedLen (numeralText value base flags).length prec width flags
  rw [paddedDigits_chars hbase hv, List.drop_append, List.drop_replicate, List.length_replicate]
  generalize paddedLen (numeralText value base flags).length prec width flags = padded at hgrow
  constructor
  · intro hread
    by_contra hlost
    have hzeros : padded - (numeralText value base flags).length - k = 0 := by omega
    have htext : numeralText value base flags = write base (digitChar flags.uppercase) value := if_neg hne
    have hless := Numerals.read_drop_write_lt (k := k - (padded - (numeralText value base flags).length))
      (digitValue_digitChar hle flags.uppercase) hbase hne (by omega) (ends_spaces hle n)
    rw [← htext] at hless
    rw [hzeros, List.replicate_zero, List.nil_append] at hread
    omega
  · intro hkept
    have hnone : k - (padded - (numeralText value base flags).length) = 0 := by omega
    rw [hnone, List.drop_zero, List.append_assoc, Numerals.read_zeros (by decide) (Nat.lt_trans Nat.zero_lt_one hbase),
      read_numeralText hbase hle flags (ends_spaces hle n)]

/-- **A number with a mark reads back exactly when the mark fits.** -/
theorem strtol_ntoaText_of_hash_iff (hhash : flags.hash = true) (hne : value ≠ 0) (hplus : flags.plus = false)
    (hspace : flags.space = false) :
    strtol base (ntoaText value false base prec width flags) = value ↔
      MarkFits base (numeralText value base flags).length prec width flags := by
  have hflags : flags.forValue value = flags := if_neg hne
  have hwidth : NtoaBuffer.signWidth false width flags = width := by
    unfold NtoaBuffer.signWidth
    simp [hplus, hspace]
  have hformat : (storedDigits value base flags).format false base prec width flags =
      (((storedDigits value base flags).padLeading prec width flags).unpad base prec width flags).mark base flags := by
    unfold NtoaBuffer.format NtoaBuffer.sign
    dsimp only
    rw [hhash, hplus, hspace, if_pos rfl, hwidth]
    rfl
  have hlen := paddedDigits_len hbase hv prec width flags
  have hdigits :
      ∀ c ∈ (((storedDigits value base flags).padLeading prec width flags).unpad base prec width flags).chars,
        digitValue c < base := by
    intro c hc
    rw [NtoaBuffer.unpad_chars] at hc
    exact digits_paddedDigits hbase hle hv prec width flags c (List.mem_of_mem_drop hc)
  unfold ntoaText
  dsimp only
  rw [hflags, hwidth]
  obtain ⟨m, n, htext⟩ := fieldText_spaces ((storedDigits value base flags).format false base prec width flags).chars
    width flags
  rw [htext, strtol_spaces, hformat, strtol_mark hbase hle _ hdigits, NtoaBuffer.unpad_len, NtoaBuffer.unpad_chars,
    hlen]
  unfold MarkFits
  generalize hkept : keptLen base (paddedLen (numeralText value base flags).length prec width flags) prec width flags =
    kept
  by_cases hhalf : (base = 16 ∨ base = 2) ∧ kept + 1 = ntoaBufferSize
  · rw [if_pos hhalf]
    exact ⟨fun h => absurd (Int.natCast_eq_zero.1 h.symm) hne, fun h => absurd hhalf h.2⟩
  · rw [if_neg hhalf, Nat.cast_inj, read_unpadded_iff hbase hle hv prec width flags hne]
    have hkle : kept ≤ paddedLen (numeralText value base flags).length prec width flags :=
      hkept ▸ keptLen_le _ _ _ _ _
    constructor
    · intro h
      exact ⟨by omega, hhalf⟩
    · intro h
      omega

end

end RiscvOs

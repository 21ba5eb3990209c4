import RiscvOs.PrintOutput
/-!
# Integers as text (`_ntoa_long` and `_ntoa_format` of `klibc/printf.c`)

The digits of a number, its leading zeros, the mark of the `#` flag and the sign are collected in a buffer of 32
characters, the last digit first; `_out_rev` writes them out from the other end.  So the buffer is a stack, and the list
of its characters from the top is what is read from left to right.
-/
namespace RiscvOs

/-- `PRINTF_NTOA_BUFFER_SIZE`. -/
def ntoaBufferSize : Nat := 32

/-- `buf` and `len`; the character stored last comes first. -/
structure NtoaBuffer where
  chars : List (BitVec 8)
  fits : chars.length ≤ ntoaBufferSize

def digitChar (uppercase : Bool) (digit : Nat) : BitVec 8 :=
  BitVec.ofNat 8 (if digit < 10 then 0x30 + digit else (if uppercase then 0x41 else 0x61) + digit - 10)

/-- The loop over the digits of a value, with room for so many more of them. -/
def digitsFrom (uppercase : Bool) (base : Nat) : (room value : Nat) → List (BitVec 8) → List (BitVec 8)
  | 0, _, chars            => chars
  | room + 1, value, chars =>
    let stored := digitChar uppercase (value % base) :: chars
    if value / base ≠ 0 then digitsFrom uppercase base room (value / base) stored else stored

/-- `while ((len < n) && (len < PRINTF_NTOA_BUFFER_SIZE)) buf[len++] = '0'`, with so much room left. -/
def zerosTo (n : Nat) : (room : Nat) → List (BitVec 8) → List (BitVec 8)
  | 0, chars        => chars
  | room + 1, chars => if chars.length < n then zerosTo n room (ch '0' :: chars) else chars

theorem length_digitsFrom_le (uppercase : Bool) (base : Nat) : ∀ (room value : Nat) (chars : List (BitVec 8)),
    (digitsFrom uppercase base room value chars).length ≤ chars.length + room
  | 0, _, _                => Nat.le_refl _
  | room + 1, value, chars => by
    rw [digitsFrom]
    have hrest := length_digitsFrom_le uppercase base room (value / base)
      (digitChar uppercase (value % base) :: chars)
    rw [List.length_cons] at hrest
    split
    · omega
    · rw [List.length_cons]
      omega

theorem zerosTo_eq (n : Nat) : ∀ (room : Nat) (chars : List (BitVec 8)),
    zerosTo n room chars = List.replicate (min n (chars.length + room) - chars.length) (ch '0') ++ chars
  | 0, chars        => by
    have hnone : min n (chars.length + 0) - chars.length = 0 := by omega
    rw [zerosTo, hnone, List.replicate_zero, List.nil_append]
  | room + 1, chars => by
    rw [zerosTo]
    by_cases h : chars.length < n
    · have hmore : min n (chars.length + (room + 1)) - chars.length =
          min n (chars.length + 1 + room) - (chars.length + 1) + 1 := by omega
      rw [if_pos h, zerosTo_eq n room, List.length_cons, hmore, List.replicate_succ', List.append_assoc,
        List.singleton_append]
    · have hnone : min n (chars.length + (room + 1)) - chars.length = 0 := by omega
      rw [if_neg h, hnone, List.replicate_zero, List.nil_append]

namespace NtoaBuffer

def len (buf : NtoaBuffer) : Nat := buf.chars.length

def empty : NtoaBuffer := ⟨[], Nat.zero_le _⟩

/-- `if (len < PRINTF_NTOA_BUFFER_SIZE) buf[len++] = c`. -/
def push (c : BitVec 8) (buf : NtoaBuffer) : NtoaBuffer :=
  if h : buf.chars.length < ntoaBufferSize then ⟨c :: buf.chars, h⟩ else buf

/-- `len--`. -/
def pop (buf : NtoaBuffer) : NtoaBuffer where
  chars := buf.chars.tail
  fits := by
    rw [List.length_tail]
    exact Nat.le_trans (Nat.sub_le _ _) buf.fits

def pad (n : Nat) (buf : NtoaBuffer) : NtoaBuffer where
  chars := zerosTo n (ntoaBufferSize - buf.chars.length) buf.chars
  fits := by
    have := buf.fits
    rw [zerosTo_eq, List.length_append, List.length_replicate]
    omega

def ofDigits (uppercase : Bool) (base value : Nat) : NtoaBuffer where
  chars := digitsFrom uppercase base ntoaBufferSize value []
  fits := Nat.le_trans (length_digitsFrom_le _ _ _ _ _) (Nat.le_of_eq (Nat.zero_add _))

/-- `width--`: the sign takes a place of a zero-padded number. -/
def signWidth (negative : Bool) (width : Nat) (flags : Flags) : Nat :=
  if !flags.left && (width ≠ 0 && flags.zeropad && (negative || flags.plus || flags.space)) then width - 1 else width

/-- `// pad leading zeros`. -/
def padLeading (prec width : Nat) (flags : Flags) (buf : NtoaBuffer) : NtoaBuffer :=
  if flags.left then buf
  else if flags.zeropad then (buf.pad prec).pad width
  else buf.pad prec

/-- What `// handle hash` takes off again, to make place for the mark. -/
def unpad (base prec width : Nat) (flags : Flags) (buf : NtoaBuffer) : NtoaBuffer :=
  if !flags.precision && buf.len ≠ 0 && (buf.len = prec || buf.len = width) then
    if buf.pop.len ≠ 0 && base = 16 then buf.pop.pop else buf.pop
  else buf

/-- The `x`, `X` or `b` of the mark, then its `0`. -/
def mark (base : Nat) (flags : Flags) (buf : NtoaBuffer) : NtoaBuffer :=
  push (ch '0')
    (if base = 16 then buf.push (if flags.uppercase then ch 'X' else ch 'x')
     else if base = 2 then buf.push (ch 'b')
     else buf)

/-- The sign; `+` goes before a space. -/
def sign (negative : Bool) (flags : Flags) (buf : NtoaBuffer) : NtoaBuffer :=
  if negative then buf.push (ch '-')
  else if flags.plus then buf.push (ch '+')
  else if flags.space then buf.push (ch ' ')
  else buf

/-- The buffer `_ntoa_format` gives to `_out_rev`. -/
def format (negative : Bool) (base prec width : Nat) (flags : Flags) (buf : NtoaBuffer) : NtoaBuffer :=
  let width := signWidth negative width flags
  let padded := buf.padLeading prec width flags
  let hashed := if flags.hash then (padded.unpad base prec width flags).mark base flags else padded
  hashed.sign negative flags

end NtoaBuffer

/-- The flags `_ntoa_long` goes on with: no hash for 0 values. -/
def Flags.forValue (flags : Flags) (value : Nat) : Flags :=
  if value = 0 then { flags with hash := false } else flags

/-- The digits `_ntoa_long` stores: none for 0 with a precision. -/
def storedDigits (value base : Nat) (flags : Flags) : NtoaBuffer :=
  if !flags.precision || value ≠ 0 then .ofDigits flags.uppercase base value else .empty

namespace Output

variable {σ : Type} (o : Output σ)

def ntoaFormat (buf : NtoaBuffer) (negative : Bool) (base prec width : Nat) (flags : Flags) (w : Written σ) :
    Written σ :=
  o.outRev (buf.format negative base prec width flags).chars (NtoaBuffer.signWidth negative width flags) flags w

def ntoaLong (value : Nat) (negative : Bool) (base prec width : Nat) (flags : Flags) (w : Written σ) : Written σ :=
  o.ntoaFormat (storedDigits value base (flags.forValue value)) negative base prec width (flags.forValue value) w

end Output

/-- The characters `_ntoa_long` writes. -/
def ntoaText (value : Nat) (negative : Bool) (base prec width : Nat) (flags : Flags) : List (BitVec 8) :=
  let f := flags.forValue value
  fieldText ((storedDigits value base f).format negative base prec width f).chars
    (NtoaBuffer.signWidth negative width f) f

/-- **`_ntoa_long` writes its text**, whatever takes the characters. -/
theorem ntoaLong_eq {σ : Type} (o : Output σ) (value : Nat) (negative : Bool) (base prec width : Nat) (flags : Flags)
    (w : Written σ) :
    o.ntoaLong value negative base prec width flags w = o.puts (ntoaText value negative base prec width flags) w := by
  have hfits := ((storedDigits value base (flags.forValue value)).format negative base prec width
    (flags.forValue value)).fits
  have hshort : ntoaBufferSize < 2 ^ 32 := by decide
  exact o.outRev_eq (Nat.lt_of_le_of_lt hfits hshort) _ _ w

example : ntoaText 42 true 10 0 6 { zeropad := true } = "-00042".toList.map ch := by decide

end RiscvOs

import RiscvOs.NumberText
import RiscvOs.ByteScans
/-!
# The loop of `_vsnprintf` (`klibc/printf.c`)

One round of `vsnprintfRound` is one round of the loop that control is in: the `while` over the format, the `do` over
the flags, `_atoi` for the width or the precision, or the loop that writes a string.  How the format and the strings are
read is a parameter (`Strings`): they are what nothing writes to, or bytes of the memory that the output goes to.
-/
namespace RiscvOs

/-- The arguments that `va_arg` has still to take, each as the word it was passed in. -/
abbrev VaList := Nat → BitVec 32

def VaList.rest (va : VaList) : VaList := fun i => va (i + 1)

/-- How a program in state `s` reads the strings that its pointers lead to. -/
structure Strings (σ P : Type) where
  chars : (s : σ) → P → CString
  next : P → P
  /-- A pointer from the arguments. -/
  ofWord : BitVec 32 → P
  chars_next : ∀ (s : σ) (p : P), chars s (next p) = (chars s p).next

/-- Strings that nothing writes to; those of the arguments are in `mem`. -/
def Strings.fixed {σ : Type} (mem : Bytes) : Strings σ CString where
  chars _ p := p
  next := CString.next
  ofWord word := mem.buffer word.toNat
  chars_next _ _ := rfl

/-- Strings in the memory that is written. -/
def Strings.memory : Strings Bytes Nat where
  chars m p := m.buffer p
  next p := wrap32 (p + 1)
  ofWord word := word.toNat
  chars_next m p := funext fun i => by
    unfold Bytes.buffer CString.next wrap32
    rw [Nat.mod_add_mod, Nat.add_assoc, Nat.add_comm 1 i]

/-- Where control stands, with the locals that are still needed there. -/
inductive Phase (P : Type) where
  /-- `while (*format)`. -/
  | text
  /-- `// evaluate flags`, and after them the start of the width. -/
  | flags (flags : Flags)
  /-- In `_atoi` for the width. -/
  | width (flags : Flags) (width : Nat)
  /-- `// evaluate precision field`. -/
  | precision (flags : Flags) (width : Nat)
  /-- In `_atoi` for the precision. -/
  | digits (flags : Flags) (width precision : Nat)
  /-- `// evaluate length field`. -/
  | length (flags : Flags) (width precision : Nat)
  /-- `// evaluate specifier`. -/
  | specifier (flags : Flags) (width precision : Nat)
  /-- `// string output`. -/
  | string (flags : Flags) (width precision l : Nat) (p : P)

structure Printing (σ P : Type) where
  phase : Phase P
  format : P
  va : VaList
  written : Written σ

def isDigit (c : BitVec 8) : Bool := 0x30 ≤ c.toNat && c.toNat ≤ 0x39

/-- `i * 10U + (c - '0')`. -/
def atoiStep (i : Nat) (c : BitVec 8) : Nat := wrap32 (i * 10 + (c.toNat - 0x30))

/-- `none` leaves the loop over the flags. -/
def setFlag (c : BitVec 8) (flags : Flags) : Option Flags :=
  if c = ch '0' then some { flags with zeropad := true }
  else if c = ch '-' then some { flags with left := true }
  else if c = ch '+' then some { flags with plus := true }
  else if c = ch ' ' then some { flags with space := true }
  else if c = ch '#' then some { flags with hash := true }
  else none

/-- A width from the arguments: a negative one asks for padding on the right. -/
def starWidth (word : BitVec 32) (flags : Flags) : Flags × Nat :=
  let w := toInt32 word.toNat
  if w < 0 then ({ flags with left := true }, toUint32 (-w)) else (flags, toUint32 w)

def starPrecision (word : BitVec 32) : Nat :=
  let prec := toInt32 word.toNat
  if 0 < prec then toUint32 prec else 0

/-- The loop of `_strnlen_s`. -/
def strnlenS : CString → (maxsize : Nat) → Nat
  | _, 0           => 0
  | s, maxsize + 1 => if s 0 ≠ 0 then strnlenS s.next maxsize + 1 else 0

/-! ## The integer conversions -/

def integerBase (c : BitVec 8) : Nat :=
  if c = ch 'x' ∨ c = ch 'X' then 16 else if c = ch 'o' then 8 else if c = ch 'b' then 2 else 10

/-- The flags the conversion goes on with. -/
def integerFlags (c : BitVec 8) (flags : Flags) : Flags where
  zeropad := flags.zeropad && !flags.precision
  left := flags.left
  plus := flags.plus && (c = ch 'i' || c = ch 'd')
  space := flags.space && (c = ch 'i' || c = ch 'd')
  hash := flags.hash && integerBase c ≠ 10
  uppercase := flags.uppercase || c = ch 'X'
  char := flags.char
  short := flags.short
  long := flags.long
  longLong := flags.longLong
  precision := flags.precision

/-- `va_arg` for `d` and `i`; `char` is unsigned. -/
def signedArg (word : BitVec 32) (flags : Flags) : Int :=
  if flags.long then toInt32 word.toNat
  else if flags.char then (word.toNat % 2 ^ 8 : Nat)
  else if flags.short then (word.setWidth 16).toInt
  else toInt32 word.toNat

def unsignedArg (word : BitVec 32) (flags : Flags) : Nat :=
  if flags.long then word.toNat
  else if flags.char then word.toNat % 2 ^ 8
  else if flags.short then word.toNat % 2 ^ 16
  else word.toNat

/-- `value > 0 ? value : 0 - value`, as unsigned. -/
def absArg (value : Int) : Nat := if 0 < value then toUint32 value else toUint32 (0 - value)

namespace Output

variable {σ : Type} (o : Output σ)

/-- The conversions `d`, `i`, `u`, `x`, `X`, `o` and `b`; without `long long` a conversion with `ll` does nothing. -/
def integer (c : BitVec 8) (flags : Flags) (width precision : Nat) (va : VaList) (w : Written σ) :
    VaList × Written σ :=
  let f := integerFlags c flags
  if f.longLong then (va, w)
  else if c = ch 'i' ∨ c = ch 'd' then
    let value := signedArg (va 0) f
    (va.rest, o.ntoaLong (absArg value) (value < 0) (integerBase c) precision width f w)
  else (va.rest, o.ntoaLong (unsignedArg (va 0) f) false (integerBase c) precision width f w)

/-- `case 'c'`. -/
def character (flags : Flags) (width : Nat) (va : VaList) (w : Written σ) : VaList × Written σ :=
  let padded := if !flags.left then o.spaces (width - 1) w else w
  let put := o.put ((va 0).setWidth 8) padded
  (va.rest, if flags.left then o.spaces (width - 1) put else put)

/-- `case 'p'`. -/
def pointer (flags : Flags) (precision : Nat) (va : VaList) (w : Written σ) : VaList × Written σ :=
  (va.rest, o.ntoaLong (va 0).toNat false 16 precision 8 { flags with zeropad := true, uppercase := true } w)

/-- `// termination`: the `NUL`, and the count that is returned. -/
def terminate (w : Written σ) : Int × σ :=
  (toInt32 w.idx, o.out 0 o.buffer (if w.idx < o.maxlen then w.idx else sub32 o.maxlen 1) o.maxlen w.state)

end Output

/-! ## A round -/

section

variable {σ P : Type} (R : Strings σ P) (o : Output σ) (s : Printing σ P)

/-- The characters from `*format` on. -/
def Printing.chars (s : Printing σ P) : CString := R.chars s.written.state s.format

/-- `format++`. -/
def Printing.next (s : Printing σ P) : Printing σ P := { s with format := R.next s.format }

def textRound : Printing σ P ⊕ (Int × σ) :=
  if s.chars R 0 = 0 then .inr (o.terminate s.written)
  else if s.chars R 0 ≠ ch '%' then .inl { s.next R with phase := .text, written := o.put (s.chars R 0) s.written }
  else .inl { s.next R with phase := .flags {} }

def flagsRound (flags : Flags) : Printing σ P :=
  match setFlag (s.chars R 0) flags with
  | some flags' => { s.next R with phase := .flags flags' }
  | none        =>
    if isDigit (s.chars R 0) then { s with phase := .width flags 0 }
    else if s.chars R 0 = ch '*' then
      { s.next R with phase := .precision (starWidth (s.va 0) flags).1 (starWidth (s.va 0) flags).2, va := s.va.rest }
    else { s with phase := .precision flags 0 }

def widthRound (flags : Flags) (width : Nat) : Printing σ P :=
  if isDigit (s.chars R 0) then { s.next R with phase := .width flags (atoiStep width (s.chars R 0)) }
  else { s with phase := .precision flags width }

def precisionRound (flags : Flags) (width : Nat) : Printing σ P :=
  if s.chars R 0 = ch '.' then
    let f := { flags with precision := true }
    if isDigit (s.chars R 1) then { s.next R with phase := .digits f width 0 }
    else if s.chars R 1 = ch '*' then
      { (s.next R).next R with phase := .length f width (starPrecision (s.va 0)), va := s.va.rest }
    else { s.next R with phase := .length f width 0 }
  else { s with phase := .length flags width 0 }

def digitsRound (flags : Flags) (width precision : Nat) : Printing σ P :=
  if isDigit (s.chars R 0) then { s.next R with phase := .digits flags width (atoiStep precision (s.chars R 0)) }
  else { s with phase := .length flags width precision }

def lengthRound (flags : Flags) (width precision : Nat) : Printing σ P :=
  if s.chars R 0 = ch 'l' then
    let f := { flags with long := true }
    if s.chars R 1 = ch 'l' then
      { (s.next R).next R with phase := .specifier { f with longLong := true } width precision }
    else { s.next R with phase := .specifier f width precision }
  else if s.chars R 0 = ch 'h' then
    let f := { flags with short := true }
    if s.chars R 1 = ch 'h' then { (s.next R).next R with phase := .specifier { f with char := true } width precision }
    else { s.next R with phase := .specifier f width precision }
  -- `ptrdiff_t` and `size_t` are as wide as `long`, `intmax_t` is not
  else if s.chars R 0 = ch 't' ∨ s.chars R 0 = ch 'z' then
    { s.next R with phase := .specifier { flags with long := true } width precision }
  else if s.chars R 0 = ch 'j' then
    { s.next R with phase := .specifier { flags with longLong := true } width precision }
  else { s with phase := .specifier flags width precision }

/-- The specifiers of `case 'd'` and its neighbours. -/
def IsInteger (c : BitVec 8) : Prop :=
  c = ch 'd' ∨ c = ch 'i' ∨ c = ch 'u' ∨ c = ch 'x' ∨ c = ch 'X' ∨ c = ch 'o' ∨ c = ch 'b'

instance decidableIsInteger (c : BitVec 8) : Decidable (IsInteger c) := inferInstanceAs (Decidable (_ ∨ _))

/-- `l` of `case 's'`. -/
def stringLen (p : CString) (flags : Flags) (precision : Nat) : Nat :=
  let l := strnlenS p (if precision ≠ 0 then precision else 2 ^ 32 - 1)
  if flags.precision then (if l < precision then l else precision) else l

/-- Back to the `while`, with the arguments and the output of a conversion. -/
def Printing.done (s : Printing σ P) (r : VaList × Written σ) : Printing σ P :=
  { s.next R with phase := .text, va := r.1, written := r.2 }

def specifierRound (flags : Flags) (width precision : Nat) : Printing σ P :=
  let c := s.chars R 0
  if IsInteger c then s.done R (o.integer c flags width precision s.va s.written)
  else if c = ch 'c' then s.done R (o.character flags width s.va s.written)
  else if c = ch 's' then
    let p := R.ofWord (s.va 0)
    let l := stringLen (R.chars s.written.state p) flags precision
    { s with
      phase := .string flags width precision l p
      va := s.va.rest
      written := if !flags.left then o.spaces (width - l) s.written else s.written }
  else if c = ch 'p' then s.done R (o.pointer flags precision s.va s.written)
  -- `case '%'` writes a `%`; any other character, the `NUL` included, stands for itself
  else s.done R (s.va, o.put c s.written)

def stringRound (flags : Flags) (width precision l : Nat) (p : P) : Printing σ P :=
  let c := R.chars s.written.state p 0
  if c ≠ 0 ∧ (flags.precision = false ∨ precision ≠ 0) then
    { s with
      phase := .string flags width (if flags.precision then precision - 1 else precision) l (R.next p)
      written := o.put c s.written }
  else s.done R (s.va, if flags.left then o.spaces (width - l) s.written else s.written)

def vsnprintfRound : Printing σ P ⊕ (Int × σ) :=
  match s.phase with
  | .text                          => textRound R o s
  | .flags f                       => .inl (flagsRound R s f)
  | .width f width                 => .inl (widthRound R s f width)
  | .precision f width             => .inl (precisionRound R s f width)
  | .digits f width precision      => .inl (digitsRound R s f width precision)
  | .length f width precision      => .inl (lengthRound R s f width precision)
  | .specifier f width precision   => .inl (specifierRound R o s f width precision)
  | .string f width precision l p  => .inl (stringRound R o s f width precision l p)

end

/-- `if (!buffer) out = _out_null`. -/
def Output.forBuffer {σ : Type} (o : Output σ) : Output σ := if o.buffer = 0 then { o with out := outNull } else o

/-- **`_vsnprintf` returns** this count, having made this of the state. -/
def VsnprintfReturns {σ P : Type} (R : Strings σ P) (o : Output σ) (format : P) (va : VaList) (s : σ) (r : Int × σ) :
    Prop :=
  Loops.Returns (vsnprintfRound R o.forBuffer) ⟨.text, format, va, ⟨0, s⟩⟩ r

end RiscvOs

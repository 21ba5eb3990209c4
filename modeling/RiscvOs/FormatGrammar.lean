import RiscvOs.FormatMachine
/-!
# Formats and what they mean

A format is a list of pieces: characters that stand for themselves, and directives with their flags, width, precision,
length and specifier.  `Directive.spell` is how one is written, `Directive.Proper` that each of its fields ends where
the next begins, and `render` the characters the pieces stand for.
-/
namespace RiscvOs

namespace CString

def cons (c : BitVec 8) (s : CString) : CString
  | 0     => c
  | i + 1 => s i

/-- These characters, then the string. -/
def prepend : List (BitVec 8) → CString → CString
  | [], s      => s
  | c :: cs, s => cons c (prepend cs s)

theorem prepend_append : ∀ (cs ds : List (BitVec 8)) (s : CString),
    prepend (cs ++ ds) s = prepend cs (prepend ds s)
  | [], _, _       => rfl
  | c :: cs, ds, s => congrArg (cons c) (prepend_append cs ds s)

end CString

open CString (prepend)

/-! ## Directives -/

inductive FlagChar where
  | zero | minus | plus | space | hash
deriving DecidableEq, Repr

def FlagChar.char : FlagChar → BitVec 8
  | .zero  => ch '0'
  | .minus => ch '-'
  | .plus  => ch '+'
  | .space => ch ' '
  | .hash  => ch '#'

def FlagChar.set (flags : Flags) : FlagChar → Flags
  | .zero  => { flags with zeropad := true }
  | .minus => { flags with left := true }
  | .plus  => { flags with plus := true }
  | .space => { flags with space := true }
  | .hash  => { flags with hash := true }

def digitText (ds : List (Fin 10)) : List (BitVec 8) := ds.map fun d : Fin 10 => digitChar false d.val

/-- The value of a decimal numeral. -/
def decimal (ds : List (Fin 10)) : Nat := ds.foldl (fun i (d : Fin 10) => i * 10 + d.val) 0

inductive Width where
  | omitted
  | number (ds : List (Fin 10))
  | star
deriving DecidableEq, Repr

inductive Precision where
  | omitted
  | empty
  | number (ds : List (Fin 10))
  | star
deriving DecidableEq, Repr

inductive Length where
  | omitted | l | ll | h | hh | t | z | j
deriving DecidableEq, Repr

structure Directive where
  flags : List FlagChar := []
  width : Width := .omitted
  precision : Precision := .omitted
  length : Length := .omitted
  specifier : BitVec 8
deriving DecidableEq, Repr

/-! ## Spelling -/

def Width.spell : Width → List (BitVec 8)
  | .omitted   => []
  | .number ds => digitText ds
  | .star      => [ch '*']

def Precision.spell : Precision → List (BitVec 8)
  | .omitted   => []
  | .empty     => [ch '.']
  | .number ds => ch '.' :: digitText ds
  | .star      => [ch '.', ch '*']

def Length.spell : Length → List (BitVec 8)
  | .omitted => []
  | .l       => [ch 'l']
  | .ll      => [ch 'l', ch 'l']
  | .h       => [ch 'h']
  | .hh      => [ch 'h', ch 'h']
  | .t       => [ch 't']
  | .z       => [ch 'z']
  | .j       => [ch 'j']

namespace Directive

variable (d : Directive)

/-- A directive from its length field on. -/
def fromLength : List (BitVec 8) := d.length.spell ++ [d.specifier]

def fromPrecision : List (BitVec 8) := d.precision.spell ++ d.fromLength

def fromWidth : List (BitVec 8) := d.width.spell ++ d.fromPrecision

def spell : List (BitVec 8) := ch '%' :: (d.flags.map FlagChar.char ++ d.fromWidth)

end Directive

def first (cs : List (BitVec 8)) : BitVec 8 := cs.headD 0

/-- The field ends before this character. -/
def Width.EndsBefore (c : BitVec 8) : Width → Prop
  | .omitted   => isDigit c = false ∧ c ≠ ch '*'
  | .number ds => ds ≠ [] ∧ isDigit c = false
  | .star      => True

def Precision.EndsBefore (c : BitVec 8) : Precision → Prop
  | .omitted   => c ≠ ch '.'
  | .empty     => isDigit c = false ∧ c ≠ ch '*'
  | .number ds => ds ≠ [] ∧ isDigit c = false
  | .star      => True

def Length.EndsBefore (c : BitVec 8) : Length → Prop
  | .omitted => c ≠ ch 'l' ∧ c ≠ ch 'h' ∧ c ≠ ch 't' ∧ c ≠ ch 'z' ∧ c ≠ ch 'j'
  | .l       => c ≠ ch 'l'
  | .h       => c ≠ ch 'h'
  | _        => True

/-- **Each field ends where the next one begins.** -/
structure Directive.Proper (d : Directive) : Prop where
  flags : setFlag (first d.fromWidth) {} = none
  width : d.width.EndsBefore (first d.fromPrecision)
  precision : d.precision.EndsBefore (first d.fromLength)
  length : d.length.EndsBefore d.specifier

/-! ## Meaning -/

/-- The locals of `_vsnprintf` when it comes to the specifier. -/
structure Fields where
  flags : Flags
  width : Nat
  precision : Nat
  va : VaList

/-- Numbers in a format are read modulo `2 ^ 32`. -/
def Width.apply (flags : Flags) (va : VaList) : Width → Fields
  | .omitted   => ⟨flags, 0, 0, va⟩
  | .number ds => ⟨flags, wrap32 (decimal ds), 0, va⟩
  | .star      => ⟨(starWidth (va 0) flags).1, (starWidth (va 0) flags).2, 0, va.rest⟩

def Precision.apply (f : Fields) : Precision → Fields
  | .omitted   => f
  | .empty     => { f with flags := { f.flags with precision := true } }
  | .number ds => { f with flags := { f.flags with precision := true }, precision := wrap32 (decimal ds) }
  | .star      =>
    { f with flags := { f.flags with precision := true }, precision := starPrecision (f.va 0), va := f.va.rest }

def Length.set (flags : Flags) : Length → Flags
  | .omitted => flags
  | .l       => { flags with long := true }
  | .ll      => { flags with long := true, longLong := true }
  | .h       => { flags with short := true }
  | .hh      => { flags with short := true, char := true }
  | .t       => { flags with long := true }
  | .z       => { flags with long := true }
  | .j       => { flags with longLong := true }

def Directive.fields (d : Directive) (va : VaList) : Fields :=
  let f := d.precision.apply (d.width.apply (d.flags.foldl FlagChar.set {}) va)
  { f with flags := d.length.set f.flags }

section

variable (mem : Bytes) (flags : Flags) (width precision : Nat) (va : VaList)

/-- The text of an integer conversion, and the arguments after it. -/
def integerText (c : BitVec 8) : List (BitVec 8) × VaList :=
  let f := integerFlags c flags
  if f.longLong then ([], va)
  else if c = ch 'i' ∨ c = ch 'd' then
    (ntoaText (absArg (signedArg (va 0) f)) (signedArg (va 0) f < 0) (integerBase c) precision width f, va.rest)
  else (ntoaText (unsignedArg (va 0) f) false (integerBase c) precision width f, va.rest)

/-- A text with spaces before or after it. -/
def padded (cs : List (BitVec 8)) : List (BitVec 8) :=
  if flags.left then cs ++ List.replicate (width - cs.length) (ch ' ')
  else List.replicate (width - cs.length) (ch ' ') ++ cs

/-- The characters of a string that a conversion writes. -/
def stringChars (p : CString) : List (BitVec 8) := (List.range (stringLen p flags precision)).map p

/-- What the specifier makes of the fields. -/
def conversionText (c : BitVec 8) : List (BitVec 8) × VaList :=
  if IsInteger c then integerText flags width precision va c
  else if c = ch 'c' then (padded flags width [(va 0).setWidth 8], va.rest)
  else if c = ch 's' then (padded flags width (stringChars flags precision (mem.buffer (va 0).toNat)), va.rest)
  else if c = ch 'p' then
    (ntoaText (va 0).toNat false 16 precision 8 { flags with zeropad := true, uppercase := true }, va.rest)
  else ([c], va)

end

def Directive.text (mem : Bytes) (d : Directive) (va : VaList) : List (BitVec 8) × VaList :=
  let f := d.fields va
  conversionText mem f.flags f.width f.precision f.va d.specifier

inductive Piece where
  | text (c : BitVec 8)
  | directive (d : Directive)
deriving DecidableEq, Repr

namespace Piece

def spell : Piece → List (BitVec 8)
  | .text c      => [c]
  | .directive d => d.spell

def Proper : Piece → Prop
  | .text c      => c ≠ 0 ∧ c ≠ ch '%'
  | .directive d => d.Proper ∧ d.specifier ≠ 0

end Piece

/-- **What a format stands for.** -/
def render (mem : Bytes) : List Piece → VaList → List (BitVec 8)
  | [], _                  => []
  | .text c :: ps, va      => c :: render mem ps va
  | .directive d :: ps, va => (d.text mem va).1 ++ render mem ps (d.text mem va).2

/-! ## What is read -/

namespace Strings

variable {σ P : Type} (R : Strings σ P)

/-- In this state these characters stand at the pointer. -/
def Reads (s : σ) : P → List (BitVec 8) → Prop
  | _, []      => True
  | p, c :: cs => R.chars s p 0 = c ∧ Reads s (R.next p) cs

/-- The pointer behind these characters. -/
def skip : List (BitVec 8) → P → P
  | [], p      => p
  | _ :: cs, p => skip cs (R.next p)

variable {R} {s : σ}

theorem skip_append : ∀ (cs ds : List (BitVec 8)) (p : P), R.skip (cs ++ ds) p = R.skip ds (R.skip cs p)
  | [], _, _       => rfl
  | _ :: cs, ds, p => skip_append cs ds (R.next p)

theorem reads_append_iff : ∀ {cs ds : List (BitVec 8)} {p : P},
    R.Reads s p (cs ++ ds) ↔ R.Reads s p cs ∧ R.Reads s (R.skip cs p) ds
  | [], _, _ => (and_iff_right trivial).symm
  | _ :: cs, _, _ => by
    rw [List.cons_append, Reads, reads_append_iff, Reads, and_assoc]
    rfl

theorem Reads.first {cs : List (BitVec 8)} {p : P} (h : R.Reads s p cs) (hcs : cs ≠ []) :
    R.chars s p 0 = first cs := by
  cases cs with
  | nil => exact absurd rfl hcs
  | cons c cs => exact h.1

/-- Characters are read by their place, counted from the first. -/
theorem reads_iff : ∀ {cs : List (BitVec 8)} {p : P},
    R.Reads s p cs ↔ ∀ i (h : i < cs.length), R.chars s p i = cs[i]
  | [], _ => iff_of_true trivial fun _ h => absurd h (Nat.not_lt_zero _)
  | c :: cs, p => by
    rw [Reads, reads_iff, R.chars_next]
    constructor
    · rintro ⟨h0, h⟩ (_ | i) hi
      · exact h0
      · exact h i (Nat.lt_of_succ_lt_succ hi)
    · intro h
      exact ⟨h 0 (Nat.succ_pos _), fun i hi => h (i + 1) (Nat.succ_lt_succ hi)⟩

end Strings

/-! ## The fields as the loop reads them -/

section

variable {σ P : Type} {R : Strings σ P} (o : Output σ)

open Loops (Reaches reaches_of_inl Returns)

theorem setFlag_char (c : FlagChar) (flags : Flags) : setFlag c.char flags = some (c.set flags) := by
  cases c <;> rfl

theorem setFlag_eq_none {c : BitVec 8} {flags : Flags} (h : setFlag c flags = none) (flags' : Flags) :
    setFlag c flags' = none := by
  unfold setFlag at *
  split_ifs at h ⊢
  rfl

theorem isDigit_digitChar (d : Fin 10) : isDigit (digitChar false d) = true := by
  revert d
  decide

theorem atoiStep_digitChar (i : Nat) (d : Fin 10) : atoiStep i (digitChar false d.val) = wrap32 (i * 10 + d.val) := by
  have hd : ∀ d : Fin 10, (digitChar false d.val).toNat - 0x30 = d.val := by decide
  unfold atoiStep
  rw [hd]

/-- Reading digits modulo `2 ^ 32` reads the number modulo `2 ^ 32`. -/
theorem foldl_atoiStep (ds : List (Fin 10)) (i : Nat) :
    (digitText ds).foldl atoiStep (wrap32 i) = wrap32 (ds.foldl (fun i (d : Fin 10) => i * 10 + d.val) i) := by
  induction ds generalizing i with
  | nil => rfl
  | cons d ds ih =>
    have hstep : atoiStep (wrap32 i) (digitChar false d.val) = wrap32 (i * 10 + d.val) := by
      rw [atoiStep_digitChar]
      unfold wrap32
      omega
    rw [digitText, List.map_cons, List.foldl_cons, hstep, List.foldl_cons]
    exact ih _

section

variable {s : Printing σ P}

theorem textRound_nul (h : s.chars R 0 = 0) : textRound R o s = .inr (o.terminate s.written) := if_pos h

theorem textRound_percent (h : s.chars R 0 = ch '%') : textRound R o s = .inl { s.next R with phase := .flags {} } := by
  have hne : s.chars R 0 ≠ 0 := by
    rw [h]
    decide
  rw [textRound, if_neg hne, if_neg (not_not.2 h)]

theorem textRound_char {c : BitVec 8} (hc : s.chars R 0 = c) (h : c ≠ 0) (h' : c ≠ ch '%') :
    textRound R o s = .inl { s.next R with phase := .text, written := o.put c s.written } := by
  subst hc
  rw [textRound, if_neg h, if_pos h']

theorem flagsRound_flag {flags flags' : Flags} (h : setFlag (s.chars R 0) flags = some flags') :
    flagsRound R s flags = { s.next R with phase := .flags flags' } := by
  rw [flagsRound, h]

theorem flagsRound_digit {flags : Flags} (h : setFlag (s.chars R 0) flags = none)
    (hd : isDigit (s.chars R 0) = true) : flagsRound R s flags = { s with phase := .width flags 0 } := by
  rw [flagsRound, h]
  exact if_pos hd

theorem flagsRound_star (h : s.chars R 0 = ch '*') (flags : Flags) :
    flagsRound R s flags =
      { s.next R with
        phase := .precision (starWidth (s.va 0) flags).1 (starWidth (s.va 0) flags).2
        va := s.va.rest } := by
  rw [flagsRound, h]
  rfl

theorem flagsRound_omitted {flags : Flags} (h : setFlag (s.chars R 0) flags = none)
    (hend : Width.omitted.EndsBefore (s.chars R 0)) :
    flagsRound R s flags = { s with phase := .precision flags 0 } := by
  rw [flagsRound, h]
  dsimp only
  rw [if_neg (by rw [hend.1]; decide), if_neg hend.2]

theorem widthRound_digit {c : BitVec 8} (hc : s.chars R 0 = c) (h : isDigit c = true) (flags : Flags) (width : Nat) :
    widthRound R s flags width = { s.next R with phase := .width flags (atoiStep width c) } := by
  subst hc
  exact if_pos h

theorem widthRound_end (h : isDigit (s.chars R 0) = false) (flags : Flags) (width : Nat) :
    widthRound R s flags width = { s with phase := .precision flags width } := by
  rw [widthRound, if_neg (by rw [h]; decide)]

theorem digitsRound_digit {c : BitVec 8} (hc : s.chars R 0 = c) (h : isDigit c = true) (flags : Flags)
    (width precision : Nat) :
    digitsRound R s flags width precision =
      { s.next R with phase := .digits flags width (atoiStep precision c) } := by
  subst hc
  exact if_pos h

theorem digitsRound_end (h : isDigit (s.chars R 0) = false) (flags : Flags) (width precision : Nat) :
    digitsRound R s flags width precision = { s with phase := .length flags width precision } := by
  rw [digitsRound, if_neg (by rw [h]; decide)]

theorem precisionRound_empty (hdot : s.chars R 0 = ch '.') (hend : Precision.empty.EndsBefore (s.chars R 1))
    (flags : Flags) (width : Nat) :
    precisionRound R s flags width = { s.next R with phase := .length { flags with precision := true } width 0 } := by
  rw [precisionRound, if_pos hdot]
  dsimp only
  rw [if_neg (by rw [hend.1]; decide), if_neg hend.2]

theorem precisionRound_number (hdot : s.chars R 0 = ch '.') (hd : isDigit (s.chars R 1) = true)
    (flags : Flags) (width : Nat) :
    precisionRound R s flags width = { s.next R with phase := .digits { flags with precision := true } width 0 } := by
  rw [precisionRound, if_pos hdot]
  exact if_pos hd

theorem precisionRound_star (hdot : s.chars R 0 = ch '.') (hs : s.chars R 1 = ch '*') (flags : Flags) (width : Nat) :
    precisionRound R s flags width =
      { (s.next R).next R with
        phase := .length { flags with precision := true } width (starPrecision (s.va 0))
        va := s.va.rest } := by
  rw [precisionRound, if_pos hdot, hs]
  rfl

theorem lengthRound_omitted (h : Length.omitted.EndsBefore (s.chars R 0)) (flags : Flags) (width precision : Nat) :
    lengthRound R s flags width precision = { s with phase := .specifier flags width precision } := by
  obtain ⟨hl, hh, ht, hz, hj⟩ := h
  rw [lengthRound, if_neg hl, if_neg hh, if_neg (not_or.2 ⟨ht, hz⟩), if_neg hj]

theorem lengthRound_l (hl : s.chars R 0 = ch 'l') (hend : s.chars R 1 ≠ ch 'l') (flags : Flags)
    (width precision : Nat) :
    lengthRound R s flags width precision =
      { s.next R with phase := .specifier { flags with long := true } width precision } := by
  rw [lengthRound, if_pos hl]
  exact if_neg hend

theorem lengthRound_ll (hl : s.chars R 0 = ch 'l') (hl' : s.chars R 1 = ch 'l') (flags : Flags)
    (width precision : Nat) :
    lengthRound R s flags width precision =
      { (s.next R).next R with
        phase := .specifier { flags with long := true, longLong := true } width precision } := by
  rw [lengthRound, if_pos hl]
  exact if_pos hl'

theorem lengthRound_h (hh : s.chars R 0 = ch 'h') (hend : s.chars R 1 ≠ ch 'h') (flags : Flags)
    (width precision : Nat) :
    lengthRound R s flags width precision =
      { s.next R with phase := .specifier { flags with short := true } width precision } := by
  rw [lengthRound, if_neg (by rw [hh]; decide), if_pos hh]
  exact if_neg hend

theorem lengthRound_hh (hh : s.chars R 0 = ch 'h') (hh' : s.chars R 1 = ch 'h') (flags : Flags)
    (width precision : Nat) :
    lengthRound R s flags width precision =
      { (s.next R).next R with
        phase := .specifier { flags with short := true, char := true } width precision } := by
  rw [lengthRound, if_neg (by rw [hh]; decide), if_pos hh]
  exact if_pos hh'

theorem lengthRound_tz (h : s.chars R 0 = ch 't' ∨ s.chars R 0 = ch 'z') (flags : Flags) (width precision : Nat) :
    lengthRound R s flags width precision =
      { s.next R with phase := .specifier { flags with long := true } width precision } := by
  have hl : s.chars R 0 ≠ ch 'l' := by
    rcases h with h | h <;> rw [h] <;> decide
  have hh : s.chars R 0 ≠ ch 'h' := by
    rcases h with h | h <;> rw [h] <;> decide
  rw [lengthRound, if_neg hl, if_neg hh, if_pos h]

theorem lengthRound_j (h : s.chars R 0 = ch 'j') (flags : Flags) (width precision : Nat) :
    lengthRound R s flags width precision =
      { s.next R with phase := .specifier { flags with longLong := true } width precision } := by
  rw [lengthRound, h]
  rfl

end

variable {p : P} (va : VaList) (w : Written σ)

theorem reaches_flags : ∀ {fs : List FlagChar} {p : P} (flags : Flags),
    R.Reads w.state p (fs.map FlagChar.char) →
      Reaches (vsnprintfRound R o) ⟨.flags flags, p, va, w⟩
        ⟨.flags (fs.foldl FlagChar.set flags), R.skip (fs.map FlagChar.char) p, va, w⟩
  | [], _, _, _ => Reaches.refl _ _
  | c :: fs, p, flags, h => by
    have hset : setFlag ((⟨.flags flags, p, va, w⟩ : Printing σ P).chars R 0) flags = some (c.set flags) := by
      rw [Printing.chars, h.1]
      exact setFlag_char c flags
    exact Reaches.head (congrArg Sum.inl (flagsRound_flag hset)) (reaches_flags (c.set flags) h.2)

/-- A loop over digits, whichever field it fills, reads them as `atoiStep` does. -/
theorem reaches_digits (phase : Nat → Phase P)
    (hround : ∀ {p : P} {c : BitVec 8} (n : Nat), R.chars w.state p 0 = c → isDigit c = true →
      vsnprintfRound R o ⟨phase n, p, va, w⟩ = .inl ⟨phase (atoiStep n c), R.next p, va, w⟩) :
    ∀ {ds : List (Fin 10)} {p : P} (n : Nat), R.Reads w.state p (digitText ds) →
      Reaches (vsnprintfRound R o) ⟨phase n, p, va, w⟩
        ⟨phase ((digitText ds).foldl atoiStep n), R.skip (digitText ds) p, va, w⟩
  | [], _, _, _ => Reaches.refl _ _
  | d :: _, _, n, h =>
    Reaches.head (hround n h.1 (isDigit_digitChar d))
      (reaches_digits phase hround (atoiStep n (digitChar false d.val)) h.2)

/-- From 0 it reads the number. -/
theorem reaches_number (phase : Nat → Phase P)
    (hround : ∀ {p : P} {c : BitVec 8} (n : Nat), R.chars w.state p 0 = c → isDigit c = true →
      vsnprintfRound R o ⟨phase n, p, va, w⟩ = .inl ⟨phase (atoiStep n c), R.next p, va, w⟩)
    {ds : List (Fin 10)} (h : R.Reads w.state p (digitText ds)) :
    Reaches (vsnprintfRound R o) ⟨phase 0, p, va, w⟩ ⟨phase (wrap32 (decimal ds)), R.skip (digitText ds) p, va, w⟩ := by
  have hvalue : (digitText ds).foldl atoiStep 0 = wrap32 (decimal ds) := foldl_atoiStep ds 0
  rw [← hvalue]
  exact reaches_digits o va w phase hround 0 h

theorem reaches_width {flags : Flags} {width : Width} (h : R.Reads w.state p width.spell)
    (hflag : setFlag (R.chars w.state p 0) flags = none)
    (hend : width.EndsBefore (R.chars w.state (R.skip width.spell p) 0)) :
    Reaches (vsnprintfRound R o) ⟨.flags flags, p, va, w⟩
      ⟨.precision (width.apply flags va).flags (width.apply flags va).width, R.skip width.spell p,
        (width.apply flags va).va, w⟩ := by
  cases width with
  | omitted =>
    have hround := flagsRound_omitted (s := ⟨.flags flags, p, va, w⟩) hflag hend
    exact reaches_of_inl (congrArg Sum.inl hround)
  | number ds =>
    cases ds with
    | nil => exact absurd rfl hend.1
    | cons d ds =>
      have hdigit : isDigit (R.chars w.state p 0) = true := by
        rw [h.1]
        exact isDigit_digitChar d
      have hround := flagsRound_digit (s := ⟨.flags flags, p, va, w⟩) hflag hdigit
      have hdigits := reaches_number o va w (.width flags)
        (fun n hc hd => congrArg Sum.inl (widthRound_digit hc hd flags n)) h
      have hlast := widthRound_end
        (s := ⟨.width flags (wrap32 (decimal (d :: ds))), R.skip (digitText (d :: ds)) p, va, w⟩) hend.2 flags
        (wrap32 (decimal (d :: ds)))
      exact Reaches.head (congrArg Sum.inl hround)
        (Reaches.trans hdigits (reaches_of_inl (congrArg Sum.inl hlast)))
  | star =>
    have hround := flagsRound_star (s := ⟨.flags flags, p, va, w⟩) h.1 flags
    exact reaches_of_inl (congrArg Sum.inl hround)

theorem reaches_precision {f : Fields} {precision : Precision} (h : R.Reads w.state p precision.spell)
    (hzero : f.precision = 0) (hend : precision.EndsBefore (R.chars w.state (R.skip precision.spell p) 0)) :
    Reaches (vsnprintfRound R o) ⟨.precision f.flags f.width, p, f.va, w⟩
      ⟨.length (precision.apply f).flags (precision.apply f).width (precision.apply f).precision,
        R.skip precision.spell p, (precision.apply f).va, w⟩ := by
  obtain ⟨flags, width, _, va⟩ := f
  cases hzero
  have hsecond : (⟨.precision flags width, p, va, w⟩ : Printing σ P).chars R 1 = R.chars w.state (R.next p) 0 :=
    (congrFun (R.chars_next w.state p) 0).symm
  cases precision with
  | omitted => exact reaches_of_inl (congrArg Sum.inl (if_neg hend))
  | empty =>
    have hround := precisionRound_empty (s := ⟨.precision flags width, p, va, w⟩) h.1 (hsecond ▸ hend) flags width
    exact reaches_of_inl (congrArg Sum.inl hround)
  | number ds =>
    cases ds with
    | nil => exact absurd rfl hend.1
    | cons d ds =>
      have hdigit : (⟨.precision flags width, p, va, w⟩ : Printing σ P).chars R 1 = digitChar false d.val :=
        hsecond.trans h.2.1
      have hround := precisionRound_number (s := ⟨.precision flags width, p, va, w⟩) h.1
        (by rw [hdigit]; exact isDigit_digitChar d) flags width
      have hdigits := reaches_number o va w (.digits { flags with precision := true } width)
        (fun n hc hd => congrArg Sum.inl (digitsRound_digit hc hd { flags with precision := true } width n)) h.2
      have hlast := digitsRound_end
        (s := ⟨.digits { flags with precision := true } width (wrap32 (decimal (d :: ds))),
          R.skip (digitText (d :: ds)) (R.next p), va, w⟩) hend.2 { flags with precision := true } width
        (wrap32 (decimal (d :: ds)))
      exact Reaches.head (congrArg Sum.inl hround)
        (Reaches.trans hdigits (reaches_of_inl (congrArg Sum.inl hlast)))
  | star =>
    have hround := precisionRound_star (s := ⟨.precision flags width, p, va, w⟩) h.1 (hsecond.trans h.2.1) flags width
    exact reaches_of_inl (congrArg Sum.inl hround)

/-- The length is read in one round. -/
theorem lengthRound_spell {flags : Flags} {length : Length} (h : R.Reads w.state p length.spell)
    (hend : length.EndsBefore (R.chars w.state (R.skip length.spell p) 0)) (width precision : Nat) :
    lengthRound R ⟨.length flags width precision, p, va, w⟩ flags width precision =
      ⟨.specifier (length.set flags) width precision, R.skip length.spell p, va, w⟩ := by
  have hfirst : ∀ {c : BitVec 8}, R.chars w.state p 0 = c →
      (⟨.length flags width precision, p, va, w⟩ : Printing σ P).chars R 0 = c := id
  have hsecond : (⟨.length flags width precision, p, va, w⟩ : Printing σ P).chars R 1 = R.chars w.state (R.next p) 0 :=
    (congrFun (R.chars_next w.state p) 0).symm
  cases length with
  | omitted => exact lengthRound_omitted (s := ⟨.length flags width precision, p, va, w⟩) hend flags width precision
  | l => exact lengthRound_l (hfirst h.1) (hsecond ▸ hend) flags width precision
  | h => exact lengthRound_h (hfirst h.1) (hsecond ▸ hend) flags width precision
  | ll => exact lengthRound_ll (hfirst h.1) (hsecond.trans h.2.1) flags width precision
  | hh => exact lengthRound_hh (hfirst h.1) (hsecond.trans h.2.1) flags width precision
  | t => exact lengthRound_tz (Or.inl (hfirst h.1)) flags width precision
  | z => exact lengthRound_tz (Or.inr (hfirst h.1)) flags width precision
  | j => exact lengthRound_j (hfirst h.1) flags width precision

/-- **A directive is read field by field**, up to its specifier. -/
theorem reaches_specifier {d : Directive} (hd : d.Proper) (h : R.Reads w.state p d.spell) :
    ∃ q, R.chars w.state q 0 = d.specifier ∧ R.next q = R.skip d.spell p ∧
      Reaches (vsnprintfRound R o) ⟨.text, p, va, w⟩
        ⟨.specifier (d.fields va).flags (d.fields va).width (d.fields va).precision, q, (d.fields va).va, w⟩ := by
  have hlen : d.fromLength ≠ [] := List.append_ne_nil_of_right_ne_nil _ (List.cons_ne_nil _ _)
  have hprec : d.fromPrecision ≠ [] := List.append_ne_nil_of_right_ne_nil _ hlen
  have hwidth : d.fromWidth ≠ [] := List.append_ne_nil_of_right_ne_nil _ hprec
  obtain ⟨hpercent, hrest⟩ := h
  obtain ⟨hflags, hfromWidth⟩ := Strings.reads_append_iff.1 hrest
  obtain ⟨hw, hfromPrecision⟩ := Strings.reads_append_iff.1 hfromWidth
  obtain ⟨hp, hfromLength⟩ := Strings.reads_append_iff.1 hfromPrecision
  obtain ⟨hl, hspec, -⟩ := Strings.reads_append_iff.1 hfromLength
  refine ⟨_, hspec, ?_, ?_⟩
  · rw [Directive.spell, Strings.skip, Strings.skip_append, Directive.fromWidth, Strings.skip_append,
      Directive.fromPrecision, Strings.skip_append, Directive.fromLength, Strings.skip_append]
    rfl
  refine Reaches.head (textRound_percent o (s := ⟨.text, p, va, w⟩) hpercent) ?_
  change Reaches _ (⟨.flags {}, R.next p, va, w⟩ : Printing σ P) _
  refine Reaches.trans (reaches_flags o va w {} hflags) ?_
  refine Reaches.trans (reaches_width o va w hw ?_ ?_) ?_
  · rw [hfromWidth.first hwidth]
    exact setFlag_eq_none hd.flags _
  · rw [hfromPrecision.first hprec]
    exact hd.width
  refine Reaches.trans (reaches_precision o w hp ?_ ?_) ?_
  · cases d.width <;> rfl
  · rw [hfromLength.first hlen]
    exact hd.precision
  refine reaches_of_inl (congrArg Sum.inl (lengthRound_spell _ w hl ?_ _ _))
  rw [hspec]
  exact hd.length

end

end RiscvOs

import RiscvOs.FormatGrammar
/-!
# `_vsnprintf` writes what the format means

The loop follows a format piece by piece, so that what it gives to the output function is `render`, character by
character, and what it returns is their number.  A string that ends inside a directive is the one exception: its `NUL`
is taken for the specifier, and the loop runs on behind it.
-/
namespace RiscvOs

open CString (prepend)
open Loops (Reaches Returns reaches_of_inl)

/-! ## The conversions -/

section

variable {σ : Type} (o : Output σ) (flags : Flags) (width precision : Nat) (va : VaList) (w : Written σ)

theorem integer_eq (c : BitVec 8) :
    o.integer c flags width precision va w =
      ((integerText flags width precision va c).2, o.puts (integerText flags width precision va c).1 w) := by
  unfold Output.integer integerText
  dsimp only
  split
  · rfl
  · split
    · rw [ntoaLong_eq]
    · rw [ntoaLong_eq]

theorem pointer_eq :
    o.pointer flags precision va w =
      (va.rest,
        o.puts (ntoaText (va 0).toNat false 16 precision 8 { flags with zeropad := true, uppercase := true }) w) := by
  unfold Output.pointer
  rw [ntoaLong_eq]

/-- Padding a list of characters that are written between the two loops for the padding. -/
theorem puts_padded (cs : List (BitVec 8)) :
    o.puts (padded flags width cs) w =
      (if flags.left then o.spaces (width - cs.length) (o.puts cs w)
      else o.puts cs (o.spaces (width - cs.length) w)) := by
  unfold padded
  split
  · rw [o.puts_append, o.spaces_eq_puts]
  · rw [o.puts_append, o.spaces_eq_puts]

theorem character_eq :
    o.character flags width va w = (va.rest, o.puts (padded flags width [(va 0).setWidth 8]) w) := by
  rw [puts_padded]
  unfold Output.character
  cases flags.left <;> rfl

end

/-! ## Strings -/

theorem strnlenS_spec : ∀ (n : Nat) (s : CString),
    strnlenS s n ≤ n ∧ (∀ i < strnlenS s n, s i ≠ 0) ∧ (strnlenS s n < n → s (strnlenS s n) = 0)
  | 0, s => ⟨Nat.le_refl _, fun i hi => absurd hi (Nat.not_lt_zero i), fun h => absurd h (Nat.lt_irrefl 0)⟩
  | n + 1, s => by
    rw [strnlenS]
    by_cases h0 : s 0 = 0
    · rw [if_neg (not_not.2 h0)]
      exact ⟨Nat.zero_le _, fun i hi => absurd hi (Nat.not_lt_zero i), fun _ => h0⟩
    · obtain ⟨hle, hne, hend⟩ := strnlenS_spec n s.next
      rw [if_pos h0]
      refine ⟨Nat.succ_le_succ hle, fun i hi => ?_, fun h => hend (Nat.lt_of_succ_lt_succ h)⟩
      cases i with
      | zero => exact h0
      | succ i => exact hne i (Nat.lt_of_succ_lt_succ hi)

/-- Where the loop that writes a string stops. -/
structure StopsAt (p : CString) (flags : Flags) (precision n : Nat) : Prop where
  ne : ∀ i < n, p i ≠ 0
  le : flags.precision = true → n ≤ precision
  stop : p n = 0 ∨ flags.precision = true ∧ n = precision

/-- **`l` is the number of characters written**, if the string ends somewhere. -/
theorem stopsAt_stringLen {p : CString} {flags : Flags} {precision : Nat} (hend : ∃ i < 2 ^ 32, p i = 0)
    (hprec : flags.precision = false → precision = 0) : StopsAt p flags precision (stringLen p flags precision) := by
  unfold stringLen
  dsimp only
  cases hflag : flags.precision with
  | false =>
    rw [hprec hflag, if_neg (by decide), if_neg (by decide)]
    obtain ⟨hle, hne, hstop⟩ := strnlenS_spec (2 ^ 32 - 1) p
    refine ⟨hne, fun h => absurd (hflag.symm.trans h) (by decide), Or.inl ?_⟩
    obtain ⟨i, hi, hzero⟩ := hend
    have hlast : strnlenS p (2 ^ 32 - 1) ≤ i := Nat.not_lt.1 fun hlt => hne i hlt hzero
    by_cases hlt : strnlenS p (2 ^ 32 - 1) < 2 ^ 32 - 1
    · exact hstop hlt
    · have heq : strnlenS p (2 ^ 32 - 1) = i := by omega
      rw [heq]
      exact hzero
  | true =>
    rw [if_pos rfl]
    by_cases h0 : precision = 0
    · rw [h0, if_neg (Nat.not_lt_zero _)]
      exact ⟨fun i hi => absurd hi (Nat.not_lt_zero i), fun _ => Nat.le_refl 0, Or.inr ⟨hflag, rfl⟩⟩
    · obtain ⟨hle, hne, hstop⟩ := strnlenS_spec precision p
      rw [if_pos h0]
      split
      next hlt => exact ⟨hne, fun _ => hle, Or.inl (hstop hlt)⟩
      next hge =>
        have heq : strnlenS p precision = precision := by omega
        rw [heq] at hne
        exact ⟨hne, fun _ => Nat.le_refl _, Or.inr ⟨hflag, rfl⟩⟩

/-- Only the characters up to where it stops count. -/
theorem strnlenS_congr : ∀ {n : Nat} {c d : CString}, (∀ i ≤ strnlenS c n, d i = c i) → strnlenS d n = strnlenS c n
  | 0, _, _, _ => rfl
  | n + 1, c, d, h => by
    have h0 : d 0 = c 0 := h 0 (Nat.zero_le _)
    rw [strnlenS, strnlenS, h0]
    by_cases hc : c 0 = 0
    · rw [if_neg (not_not.2 hc), if_neg (not_not.2 hc)]
    · have hrest : ∀ i ≤ strnlenS c.next n, d.next i = c.next i := by
        intro i hi
        refine h (i + 1) ?_
        rw [strnlenS, if_pos hc]
        exact Nat.succ_le_succ hi
      rw [if_pos hc, if_pos hc, strnlenS_congr hrest]

theorem stringLen_congr {c d : CString} {flags : Flags} {precision : Nat}
    (h : ∀ i ≤ stringLen c flags precision, d i = c i) : stringLen d flags precision = stringLen c flags precision := by
  unfold stringLen at *
  dsimp only at *
  cases hflag : flags.precision with
  | false =>
    rw [hflag, if_neg Bool.false_ne_true] at h
    rw [if_neg Bool.false_ne_true, if_neg Bool.false_ne_true, strnlenS_congr h]
  | true =>
    rw [hflag, if_pos rfl] at h
    rw [if_pos rfl, if_pos rfl]
    by_cases h0 : precision = 0
    · rw [h0, if_neg (Nat.not_lt_zero _), if_neg (Nat.not_lt_zero _)]
    · obtain ⟨hle, -, -⟩ := strnlenS_spec precision c
      rw [if_pos h0] at h ⊢
      have hlen : strnlenS d precision = strnlenS c precision := by
        refine strnlenS_congr fun i hi => h i ?_
        split <;> omega
      rw [hlen]

section

variable {σ P : Type} {R : Strings σ P} (o : Output σ)

theorem stringRound_char {s : Printing σ P} {flags : Flags} {precision : Nat} {p : P} {c : BitVec 8}
    (hc : R.chars s.written.state p 0 = c) (h : c ≠ 0) (h' : flags.precision = false ∨ precision ≠ 0) (width l : Nat) :
    stringRound R o s flags width precision l p =
      { s with
        phase := .string flags width (if flags.precision then precision - 1 else precision) l (R.next p)
        written := o.put c s.written } := by
  subst hc
  exact if_pos ⟨h, h'⟩

theorem stringRound_end {s : Printing σ P} {flags : Flags} {precision : Nat} {p : P} {c : CString}
    (hc : R.chars s.written.state p 0 = c 0) (h : StopsAt c flags precision 0) (width l : Nat) :
    stringRound R o s flags width precision l p =
      s.done R (s.va, if flags.left then o.spaces (width - l) s.written else s.written) := by
  refine if_neg ?_
  rintro ⟨hne, hmore⟩
  rw [hc] at hne
  rcases h.stop with hzero | ⟨hflag, hlast⟩
  · exact hne hzero
  · cases hmore with
    | inl hnot => exact absurd (hflag.symm.trans hnot) (by decide)
    | inr hnot => exact hnot hlast.symm

/-- **The loop writes the characters up to where it stops**, if what it has written does not change those to come. -/
theorem reaches_string (flags : Flags) (width l : Nat) (format : P) (va : VaList) :
    ∀ {n precision : Nat} {p : P} {c : CString} (w : Written σ), StopsAt c flags precision n →
      (∀ k ≤ n, R.chars (o.puts ((List.range k).map c) w).state p k = c k) →
      Reaches (vsnprintfRound R o) ⟨.string flags width precision l p, format, va, w⟩
        ⟨.text, R.next format, va, if flags.left then o.spaces (width - l) (o.puts ((List.range n).map c) w)
          else o.puts ((List.range n).map c) w⟩
  | 0, precision, p, c, w, h, hread => by
    have hround := stringRound_end o (s := ⟨.string flags width precision l p, format, va, w⟩)
      (hread 0 (Nat.le_refl 0)) h width l
    exact reaches_of_inl (congrArg Sum.inl hround)
  | n + 1, precision, p, c, w, h, hread => by
    have hmore : flags.precision = false ∨ precision ≠ 0 := by
      cases hflag : flags.precision with
      | false => exact Or.inl rfl
      | true =>
        have := h.le hflag
        exact Or.inr (by omega)
    have hround := stringRound_char o (s := ⟨.string flags width precision l p, format, va, w⟩)
      (hread 0 (Nat.zero_le _)) (h.ne 0 (Nat.succ_pos n)) hmore width l
    have hnext : StopsAt c.next flags (if flags.precision then precision - 1 else precision) n := by
      refine ⟨fun i hi => h.ne (i + 1) (Nat.succ_lt_succ hi), fun hflag => ?_, ?_⟩
      · rw [if_pos hflag]
        exact Nat.le_sub_of_add_le (h.le hflag)
      · rcases h.stop with hzero | ⟨hflag, hlast⟩
        · exact Or.inl hzero
        · exact Or.inr ⟨hflag, by rw [if_pos hflag, ← hlast, Nat.add_sub_cancel]⟩
    have hchars : ∀ k, (List.range (k + 1)).map c = c 0 :: (List.range k).map c.next := by
      intro k
      rw [List.range_succ_eq_map, List.map_cons, List.map_map]
      rfl
    have hrest : ∀ k ≤ n, R.chars (o.puts ((List.range k).map c.next) (o.put (c 0) w)).state (R.next p) k =
        c.next k := by
      intro k hk
      have hat := hread (k + 1) (Nat.succ_le_succ hk)
      rw [hchars] at hat
      rw [R.chars_next]
      exact hat
    rw [hchars]
    exact Reaches.head (congrArg Sum.inl hround) (reaches_string flags width l format va (o.put (c 0) w) hnext hrest)

/-- Some byte of memory is 0, so every string ends: addresses go round. -/
theorem exists_nul {mem : Bytes} (hzero : ∃ a < 2 ^ 32, mem a = 0) (q : Nat) :
    ∃ i < 2 ^ 32, mem.buffer q i = 0 := by
  obtain ⟨a, ha, h⟩ := hzero
  refine ⟨sub32 a q, sub32_lt a q, ?_⟩
  have hback : wrap32 (q + sub32 a q) = a := by
    unfold wrap32 sub32
    omega
  unfold Bytes.buffer
  rw [hback, h]

theorem not_isInteger {c : BitVec 8} (h : c = ch 'c' ∨ c = ch 's' ∨ c = ch 'p') : ¬ IsInteger c := by
  rcases h with rfl | rfl | rfl <;> decide

section

variable {s : Printing σ P} {c : BitVec 8} (hchar : s.chars R 0 = c) (flags : Flags) (width precision : Nat)

include hchar

theorem specifierRound_integer (h : IsInteger c) :
    specifierRound R o s flags width precision =
      s.done R (o.integer c flags width precision s.va s.written) := by
  subst hchar
  exact if_pos h

theorem specifierRound_character (h : c = ch 'c') :
    specifierRound R o s flags width precision = s.done R (o.character flags width s.va s.written) := by
  unfold specifierRound
  dsimp only
  rw [hchar, if_neg (not_isInteger (Or.inl h)), if_pos h]

theorem specifierRound_string (h : c = ch 's') (text : CString)
    (htext : ∀ i ≤ stringLen text flags precision, R.chars s.written.state (R.ofWord (s.va 0)) i = text i) :
    specifierRound R o s flags width precision =
      { s with
        phase := .string flags width precision (stringLen text flags precision) (R.ofWord (s.va 0))
        va := s.va.rest
        written :=
          if !flags.left then o.spaces (width - stringLen text flags precision) s.written else s.written } := by
  have hc : c ≠ ch 'c' := by
    rw [h]
    decide
  unfold specifierRound
  dsimp only
  rw [hchar, if_neg (not_isInteger (Or.inr (Or.inl h))), if_neg hc, if_pos h, stringLen_congr htext]

theorem specifierRound_pointer (h : c = ch 'p') :
    specifierRound R o s flags width precision = s.done R (o.pointer flags precision s.va s.written) := by
  have hc : c ≠ ch 'c' := by
    rw [h]
    decide
  have hs : c ≠ ch 's' := by
    rw [h]
    decide
  unfold specifierRound
  dsimp only
  rw [hchar, if_neg (not_isInteger (Or.inr (Or.inr h))), if_neg hc, if_neg hs, if_pos h]

theorem specifierRound_other (hi : ¬ IsInteger c) (hc : c ≠ ch 'c') (hs : c ≠ ch 's') (hp : c ≠ ch 'p') :
    specifierRound R o s flags width precision = s.done R (s.va, o.put c s.written) := by
  unfold specifierRound
  dsimp only
  rw [hchar, if_neg hi, if_neg hc, if_neg hs, if_neg hp]

end

theorem length_stringChars (flags : Flags) (precision : Nat) (p : CString) :
    (stringChars flags precision p).length = stringLen p flags precision := by
  unfold stringChars
  rw [List.length_map, List.length_range]

theorem stringChars_initial {flags : Flags} {precision : Nat} {text : CString} {k : Nat}
    (hk : k ≤ stringLen text flags precision) : (List.range k).map text <+: stringChars flags precision text := by
  have htake : (List.range (stringLen text flags precision)).take k = List.range k := by
    rw [List.take_range, Nat.min_eq_left hk]
  rw [← htake]
  exact (List.take_prefix ..).map text

theorem puts_paddedString (flags : Flags) (width precision : Nat) (text : CString) (w : Written σ) :
    o.puts (padded flags width (stringChars flags precision text)) w =
      if flags.left then
        o.spaces (width - stringLen text flags precision)
          (o.puts ((List.range (stringLen text flags precision)).map text) w)
      else
        o.puts ((List.range (stringLen text flags precision)).map text)
          (o.spaces (width - stringLen text flags precision) w) := by
  rw [puts_padded, length_stringChars]
  rfl

/-- The spaces before a string, the string and the spaces behind it are the padded string, if none of the characters
changes those to come. -/
theorem reaches_paddedString {flags : Flags} {precision : Nat} (hprec : flags.precision = false → precision = 0)
    (width : Nat) {text : CString} (hnul : ∃ i < 2 ^ 32, text i = 0) (p format : P) (va : VaList) {w : Written σ}
    (hread : ∀ pre, pre <+: padded flags width (stringChars flags precision text) →
      ∀ i ≤ stringLen text flags precision, R.chars (o.puts pre w).state p i = text i) :
    Reaches (vsnprintfRound R o)
      ⟨.string flags width precision (stringLen text flags precision) p, format, va,
        if !flags.left then o.spaces (width - stringLen text flags precision) w else w⟩
      ⟨.text, R.next format, va, o.puts (padded flags width (stringChars flags precision text)) w⟩ := by
  have hrun := reaches_string (R := R) o flags width (stringLen text flags precision) format va (p := p)
    (if !flags.left then o.spaces (width - stringLen text flags precision) w else w) (stopsAt_stringLen hnul hprec)
  rw [puts_paddedString]
  unfold padded at hread
  cases hleft : flags.left with
  | true =>
    rw [hleft] at hrun hread
    exact hrun fun k hk => hread _ ((stringChars_initial hk).trans (List.prefix_append ..)) k hk
  | false =>
    rw [hleft] at hrun hread
    refine hrun fun k hk => ?_
    have hat := hread (List.replicate (width - (stringChars flags precision text).length) (ch ' ') ++
      (List.range k).map text) ((List.prefix_append_right_inj _).2 (stringChars_initial hk)) k hk
    rw [o.puts_append, ← o.spaces_eq_puts, length_stringChars] at hat
    exact hat

/-- **A specifier writes its text**, if what it writes does not change the string it prints. -/
theorem reaches_conversion {mem : Bytes} (hzero : ∃ a < 2 ^ 32, mem a = 0) {c : BitVec 8} {q : P} {w : Written σ}
    (hchar : R.chars w.state q 0 = c) (f : Fields) (hprec : f.flags.precision = false → f.precision = 0)
    (hstring : c = ch 's' → ∀ pre, pre <+: (conversionText mem f.flags f.width f.precision f.va c).1 →
      ∀ i ≤ stringLen (mem.buffer (f.va 0).toNat) f.flags f.precision,
        R.chars (o.puts pre w).state (R.ofWord (f.va 0)) i = mem.buffer (f.va 0).toNat i) :
    Reaches (vsnprintfRound R o) ⟨.specifier f.flags f.width f.precision, q, f.va, w⟩
      ⟨.text, R.next q, (conversionText mem f.flags f.width f.precision f.va c).2,
        o.puts (conversionText mem f.flags f.width f.precision f.va c).1 w⟩ := by
  obtain ⟨flags, width, precision, va⟩ := f
  generalize hs : (⟨.specifier flags width precision, q, va, w⟩ : Printing σ P) = s
  have hc0 : s.chars R 0 = c := hs ▸ hchar
  have hround : vsnprintfRound R o s = .inl (specifierRound R o s flags width precision) := hs ▸ rfl
  unfold conversionText at *
  dsimp only at *
  by_cases hint : IsInteger c
  · rw [if_pos hint]
    rw [specifierRound_integer o hc0 flags width precision hint, integer_eq] at hround
    subst hs
    exact reaches_of_inl hround
  · rw [if_neg hint] at hstring ⊢
    by_cases hc : c = ch 'c'
    · rw [if_pos hc]
      rw [specifierRound_character o hc0 flags width precision hc, character_eq] at hround
      subst hs
      exact reaches_of_inl hround
    · rw [if_neg hc] at hstring ⊢
      by_cases hstr : c = ch 's'
      · rw [if_pos hstr] at hstring ⊢
        have hread := hstring hstr
        rw [specifierRound_string o hc0 flags width precision hstr (mem.buffer (va 0).toNat)
          (hs ▸ hread [] List.nil_prefix)] at hround
        subst hs
        exact Reaches.head hround
          (reaches_paddedString o hprec width (exists_nul hzero (va 0).toNat) (R.ofWord (va 0)) q va.rest hread)
      · rw [if_neg hstr]
        by_cases hp : c = ch 'p'
        · rw [if_pos hp]
          rw [specifierRound_pointer o hc0 flags width precision hp, pointer_eq] at hround
          subst hs
          exact reaches_of_inl hround
        · rw [if_neg hp]
          rw [specifierRound_other o hc0 flags width precision hint hc hstr hp] at hround
          subst hs
          exact reaches_of_inl hround

/-- Without a precision in the format there is none. -/
theorem fields_precision (d : Directive) (va : VaList) (h : (d.fields va).flags.precision = false) :
    (d.fields va).precision = 0 := by
  have hset : ∀ (length : Length) (flags : Flags), (length.set flags).precision = flags.precision := by
    intro length flags
    cases length <;> rfl
  have hwidth : (d.width.apply (d.flags.foldl FlagChar.set {}) va).precision = 0 := by
    cases d.width <;> rfl
  rw [Directive.fields, hset] at h
  change (d.precision.apply _).precision = 0
  cases hp : d.precision with
  | omitted => exact hwidth
  | empty => exact hwidth
  | number ds =>
    rw [hp] at h
    exact absurd h (by simp [Precision.apply])
  | star =>
    rw [hp] at h
    exact absurd h (by simp [Precision.apply])

/-- The string that a directive prints, as the word for its pointer and its length. -/
def Directive.string (mem : Bytes) (d : Directive) (va : VaList) : List (BitVec 32 × Nat) :=
  let f := d.fields va
  if d.specifier = ch 's' then [(f.va 0, stringLen (mem.buffer (f.va 0).toNat) f.flags f.precision)] else []

/-- The strings that the pieces print. -/
def stringsOf (mem : Bytes) : List Piece → VaList → List (BitVec 32 × Nat)
  | [], _                  => []
  | .text _ :: ps, va      => stringsOf mem ps va
  | .directive d :: ps, va => d.string mem va ++ stringsOf mem ps (d.text mem va).2

/-- The arguments after those that the pieces take. -/
def argsAfter (mem : Bytes) : List Piece → VaList → VaList
  | [], va                 => va
  | .text _ :: ps, va      => argsAfter mem ps va
  | .directive d :: ps, va => argsAfter mem ps (d.text mem va).2

/-- How the pieces are written. -/
def spellAll (ps : List Piece) : List (BitVec 8) := ps.flatMap Piece.spell

/-- In this state the pieces stand at the pointer, and the strings they print are those of `mem`. -/
structure Strings.ReadsPieces (R : Strings σ P) (mem : Bytes) (ps : List Piece) (va : VaList) (p : P) (s : σ) :
    Prop where
  format : R.Reads s p (spellAll ps)
  strings : ∀ x ∈ stringsOf mem ps va, ∀ i ≤ x.2, R.chars s (R.ofWord x.1) i = mem.buffer x.1.toNat i

section

variable {mem : Bytes} {ps : List Piece} {va : VaList} {p : P} {s : σ}

theorem Strings.ReadsPieces.of_text {c : BitVec 8} (h : R.ReadsPieces mem (.text c :: ps) va p s) :
    R.chars s p 0 = c ∧ R.ReadsPieces mem ps va (R.next p) s :=
  ⟨h.format.1, h.format.2, h.strings⟩

theorem Strings.ReadsPieces.of_directive {d : Directive} (h : R.ReadsPieces mem (.directive d :: ps) va p s) :
    R.Reads s p d.spell ∧ (∀ x ∈ d.string mem va, ∀ i ≤ x.2, R.chars s (R.ofWord x.1) i = mem.buffer x.1.toNat i) ∧
      R.ReadsPieces mem ps (d.text mem va).2 (R.skip d.spell p) s := by
  obtain ⟨hd, hps⟩ := Strings.reads_append_iff.1 h.format
  exact ⟨hd, fun x hx => h.strings x (List.mem_append_left _ hx), hps,
    fun x hx => h.strings x (List.mem_append_right _ hx)⟩

end

/-- **A directive writes its text**, if what it writes does not change the string it prints. -/
theorem reaches_directive {mem : Bytes} (hzero : ∃ a < 2 ^ 32, mem a = 0) {d : Directive} (hd : d.Proper) {p : P}
    (va : VaList) (w : Written σ) (h : R.Reads w.state p d.spell)
    (hstring : ∀ pre, pre <+: (d.text mem va).1 → ∀ x ∈ d.string mem va, ∀ i ≤ x.2,
      R.chars (o.puts pre w).state (R.ofWord x.1) i = mem.buffer x.1.toNat i) :
    Reaches (vsnprintfRound R o) ⟨.text, p, va, w⟩
      ⟨.text, R.skip d.spell p, (d.text mem va).2, o.puts (d.text mem va).1 w⟩ := by
  obtain ⟨q, hq, hnext, hspecifier⟩ := reaches_specifier o va w hd h
  have hconversion := reaches_conversion o hzero hq (d.fields va) (fields_precision d va) fun hs pre hpre =>
    hstring pre hpre _ (by
      unfold Directive.string
      rw [if_pos hs]
      exact List.mem_singleton_self _)
  rw [hnext] at hconversion
  exact Reaches.trans hspecifier hconversion

/-- **The pieces write what they stand for**, if what they write does not change what is still to be read. -/
theorem reaches_pieces {mem : Bytes} (hzero : ∃ a < 2 ^ 32, mem a = 0) : ∀ {ps : List Piece} {p : P} (va : VaList)
    (w : Written σ), (∀ x ∈ ps, x.Proper) →
      (∀ pre, pre <+: render mem ps va → R.ReadsPieces mem ps va p (o.puts pre w).state) →
      Reaches (vsnprintfRound R o) ⟨.text, p, va, w⟩
        ⟨.text, R.skip (spellAll ps) p, argsAfter mem ps va, o.puts (render mem ps va) w⟩
  | [], _, _, _, _, _ => Reaches.refl _ _
  | .text c :: ps, p, va, w, h, hread => by
    have hc := h (.text c) List.mem_cons_self
    have hhere := (hread [] List.nil_prefix).of_text.1
    have hround := textRound_char o (s := ⟨.text, p, va, w⟩) hhere hc.1 hc.2
    refine Reaches.head hround ?_
    exact reaches_pieces hzero va (o.put c w) (fun x hx => h x (List.mem_cons_of_mem _ hx)) fun pre hpre =>
      (hread (c :: pre) ((List.prefix_cons_inj c).2 hpre)).of_text.2
  | .directive d :: ps, p, va, w, h, hread => by
    have hd := h (.directive d) List.mem_cons_self
    have hhere := (hread [] List.nil_prefix).of_directive.1
    have hhead := reaches_directive o hzero hd.1 va w hhere fun pre hpre =>
      (hread pre (hpre.trans (List.prefix_append ..))).of_directive.2.1
    have hrest := reaches_pieces hzero (p := R.skip d.spell p) (d.text mem va).2 (o.puts (d.text mem va).1 w)
      (fun x hx => h x (List.mem_cons_of_mem _ hx)) fun pre hpre => by
        have hafter := hread ((d.text mem va).1 ++ pre) ((List.prefix_append_right_inj _).2 hpre)
        rw [o.puts_append] at hafter
        exact hafter.of_directive.2.2
    have hskip : R.skip (spellAll (.directive d :: ps)) p = R.skip (spellAll ps) (R.skip d.spell p) :=
      Strings.skip_append _ _ p
    rw [render, o.puts_append, hskip]
    exact Reaches.trans hhead hrest

/-- **`_vsnprintf` does what the format says**, if what it writes does not change what it is still to read. -/
theorem vsnprintf_returns {mem : Bytes} (hzero : ∃ a < 2 ^ 32, mem a = 0) {ps : List Piece}
    (hps : ∀ x ∈ ps, x.Proper) (va : VaList) (s : σ) {format : P}
    (hread : ∀ pre, pre <+: render mem ps va →
      R.ReadsPieces mem ps va format (o.forBuffer.puts pre ⟨0, s⟩).state)
    (hnul : R.chars (o.forBuffer.puts (render mem ps va) ⟨0, s⟩).state (R.skip (spellAll ps) format) 0 = 0) :
    VsnprintfReturns R o format va s (o.forBuffer.terminate (o.forBuffer.puts (render mem ps va) ⟨0, s⟩)) := by
  have hround := textRound_nul o.forBuffer (s := ⟨.text, R.skip (spellAll ps) format, argsAfter mem ps va,
    o.forBuffer.puts (render mem ps va) ⟨0, s⟩⟩) hnul
  exact Reaches.returns (reaches_pieces o.forBuffer hzero va ⟨0, s⟩ hps hread) (Loops.returns_of_inr hround)

end

/-! ## Strings that nothing writes to -/

section

variable {σ : Type} {mem : Bytes} {s : σ}

theorem fixed_skip : ∀ (cs : List (BitVec 8)) (rest : CString),
    (Strings.fixed (σ := σ) mem).skip cs (prepend cs rest) = rest
  | [], _         => rfl
  | _ :: cs, rest => fixed_skip cs rest

theorem fixed_reads : ∀ (cs : List (BitVec 8)) (rest : CString), (Strings.fixed mem).Reads s (prepend cs rest) cs
  | [], _         => trivial
  | _ :: cs, rest => ⟨rfl, fixed_reads cs rest⟩

theorem fixed_readsPieces (ps : List Piece) (va : VaList) (rest : CString) :
    (Strings.fixed mem).ReadsPieces mem ps va (prepend (spellAll ps) rest) s :=
  ⟨fixed_reads _ rest, fun _ _ _ _ => rfl⟩

end

/-- **`_vsnprintf` does what the format says**: the characters it stands for go to the output function one by one, then
the `NUL`, and their number is returned. -/
theorem vsnprintf_renders {σ : Type} (mem : Bytes) (hzero : ∃ a < 2 ^ 32, mem a = 0) (o : Output σ) (ps : List Piece)
    (hps : ∀ p ∈ ps, p.Proper) (rest : CString) (va : VaList) (s : σ) :
    VsnprintfReturns (.fixed mem) o (prepend (spellAll ps) (CString.cons 0 rest)) va s
      (o.forBuffer.terminate (o.forBuffer.puts (render mem ps va) ⟨0, s⟩)) := by
  refine vsnprintf_returns o hzero hps va s (fun pre _ => fixed_readsPieces ps va _) ?_
  rw [fixed_skip]
  rfl

/-- Memory that holds nothing but zeros. -/
def zeroMemory : Bytes := fun _ => 0

theorem zeroMemory_nul : ∃ a < 2 ^ 32, zeroMemory a = 0 := ⟨0, by decide, rfl⟩

/-- `"n%3d"`. -/
def numberFormat : List Piece := [.text (ch 'n'), .directive { width := .number [3], specifier := ch 'd' }]

theorem numberFormat_proper : ∀ p ∈ numberFormat, p.Proper := by
  have htext : (Piece.text (ch 'n')).Proper := ⟨by decide, by decide⟩
  have hdirective : Directive.Proper { width := .number [3], specifier := ch 'd' } :=
    ⟨by decide, ⟨by decide, by decide⟩, by unfold Precision.EndsBefore; decide, by unfold Length.EndsBefore; decide⟩
  intro p hp
  cases List.mem_cons.1 hp with
  | inl h => exact h ▸ htext
  | inr h => exact List.mem_singleton.1 h ▸ ⟨hdirective, by decide⟩

theorem vsnprintf_renders_numberFormat :
    VsnprintfReturns (.fixed zeroMemory) ⟨outChar, 8, 100⟩ (prepend (spellAll numberFormat) (CString.cons 0 fun _ => 1))
      (fun _ => 42) [] (4, "n 42".toList.map ch) :=
  vsnprintf_renders zeroMemory zeroMemory_nul ⟨outChar, 8, 100⟩ numberFormat numberFormat_proper _ _ []

/-! ## Every string is a format, or dangles -/

/-- The string ends inside a directive, whose specifier would be the `NUL`. -/
def Dangles (cs : List (BitVec 8)) : Prop :=
  ∃ (ps : List Piece) (d : Directive),
    (∀ p ∈ ps, p.Proper) ∧ d.Proper ∧ d.specifier = 0 ∧ cs ++ [0] = spellAll ps ++ d.spell

theorem exists_flags : ∀ cs : List (BitVec 8),
    ∃ (fs : List FlagChar) (rest : _), cs = fs.map FlagChar.char ++ rest ∧ setFlag (first rest) {} = none
  | []      => ⟨[], [], rfl, rfl⟩
  | c :: cs => by
    obtain ⟨fs, rest, hcs, hend⟩ := exists_flags cs
    cases hc : setFlag c {} with
    | none => exact ⟨[], c :: cs, rfl, hc⟩
    | some flags =>
      have hchar : ∃ f : FlagChar, f.char = c := by
        unfold setFlag at hc
        split_ifs at hc with h0 h1 h2 h3 h4
        · exact ⟨.zero, h0.symm⟩
        · exact ⟨.minus, h1.symm⟩
        · exact ⟨.plus, h2.symm⟩
        · exact ⟨.space, h3.symm⟩
        · exact ⟨.hash, h4.symm⟩
      obtain ⟨f, rfl⟩ := hchar
      exact ⟨f :: fs, rest, congrArg (f.char :: ·) hcs, hend⟩

theorem exists_digits : ∀ cs : List (BitVec 8),
    ∃ (ds : List (Fin 10)) (rest : _), cs = digitText ds ++ rest ∧ isDigit (first rest) = false
  | []      => ⟨[], [], rfl, rfl⟩
  | c :: cs => by
    obtain ⟨ds, rest, hcs, hend⟩ := exists_digits cs
    cases hc : isDigit c with
    | false => exact ⟨[], c :: cs, rfl, hc⟩
    | true =>
      unfold isDigit at hc
      simp only [Bool.and_eq_true, decide_eq_true_eq] at hc
      have hval : c.toNat - 0x30 < 10 := by omega
      have hchar : digitChar false (c.toNat - 0x30) = c := by
        apply BitVec.eq_of_toNat_eq
        rw [digitChar, if_pos hval, BitVec.toNat_ofNat]
        omega
      refine ⟨⟨c.toNat - 0x30, hval⟩ :: ds, rest, ?_, hend⟩
      rw [digitText, List.map_cons, List.cons_append, hchar]
      exact congrArg (c :: ·) hcs

theorem exists_width (cs : List (BitVec 8)) :
    ∃ (width : Width) (rest : _), cs = width.spell ++ rest ∧ width.EndsBefore (first rest) := by
  obtain ⟨ds, rest, hcs, hend⟩ := exists_digits cs
  by_cases hds : ds = []
  · rw [hds] at hcs
    cases rest with
    | nil => exact ⟨.omitted, [], hcs, rfl, by decide⟩
    | cons c rest =>
      by_cases hstar : c = ch '*'
      · exact ⟨.star, rest, by rw [hcs, hstar]; rfl, trivial⟩
      · exact ⟨.omitted, c :: rest, hcs, hend, hstar⟩
  · exact ⟨.number ds, rest, hcs, hds, hend⟩

theorem exists_precision (cs : List (BitVec 8)) :
    ∃ (precision : Precision) (rest : _), cs = precision.spell ++ rest ∧ precision.EndsBefore (first rest) := by
  cases cs with
  | nil => exact ⟨.omitted, [], rfl, by unfold Precision.EndsBefore; decide⟩
  | cons c cs =>
    by_cases hdot : c = ch '.'
    · obtain ⟨width, rest, hcs, hend⟩ := exists_width cs
      cases width with
      | omitted => exact ⟨.empty, rest, by rw [hdot, hcs]; rfl, hend⟩
      | number ds => exact ⟨.number ds, rest, by rw [hdot, hcs]; rfl, hend⟩
      | star => exact ⟨.star, rest, by rw [hdot, hcs]; rfl, trivial⟩
    · exact ⟨.omitted, c :: cs, rfl, hdot⟩

theorem exists_length (cs : List (BitVec 8)) :
    ∃ (length : Length) (rest : _), cs = length.spell ++ rest ∧ length.EndsBefore (first rest) := by
  cases cs with
  | nil => exact ⟨.omitted, [], rfl, by unfold Length.EndsBefore; decide⟩
  | cons c cs =>
    by_cases hl : c = ch 'l'
    · cases cs with
      | nil => exact ⟨.l, [], by rw [hl]; rfl, by unfold Length.EndsBefore; decide⟩
      | cons c' cs =>
        by_cases hll : c' = ch 'l'
        · exact ⟨.ll, cs, by rw [hl, hll]; rfl, trivial⟩
        · exact ⟨.l, c' :: cs, by rw [hl]; rfl, hll⟩
    · by_cases hh : c = ch 'h'
      · cases cs with
        | nil => exact ⟨.h, [], by rw [hh]; rfl, by unfold Length.EndsBefore; decide⟩
        | cons c' cs =>
          by_cases hhh : c' = ch 'h'
          · exact ⟨.hh, cs, by rw [hh, hhh]; rfl, trivial⟩
          · exact ⟨.h, c' :: cs, by rw [hh]; rfl, hhh⟩
      · by_cases ht : c = ch 't'
        · exact ⟨.t, cs, by rw [ht]; rfl, trivial⟩
        · by_cases hz : c = ch 'z'
          · exact ⟨.z, cs, by rw [hz]; rfl, trivial⟩
          · by_cases hj : c = ch 'j'
            · exact ⟨.j, cs, by rw [hj]; rfl, trivial⟩
            · exact ⟨.omitted, c :: cs, rfl, hl, hh, ht, hz, hj⟩

theorem first_append_first (cs ds : List (BitVec 8)) : first (cs ++ [first ds]) = first (cs ++ ds) := by
  cases cs with
  | nil => rfl
  | cons c cs => rfl

/-- What follows a `%` is a directive, whole or cut off by the end of the string. -/
theorem exists_directive (cs : List (BitVec 8)) :
    ∃ d : Directive, d.Proper ∧
      ((∃ rest, ch '%' :: cs = d.spell ++ rest ∧ d.specifier ∈ cs) ∨
        d.specifier = 0 ∧ ch '%' :: cs ++ [0] = d.spell) := by
  obtain ⟨fs, afterFlags, hfs, hflags⟩ := exists_flags cs
  obtain ⟨width, afterWidth, hw, hwidth⟩ := exists_width afterFlags
  obtain ⟨precision, afterPrecision, hp, hprecision⟩ := exists_precision afterWidth
  obtain ⟨length, afterLength, hl, hlength⟩ := exists_length afterPrecision
  have hfromLength : first (length.spell ++ [first afterLength]) = first afterPrecision := by
    rw [first_append_first, ← hl]
  have hfromPrecision : first (precision.spell ++ (length.spell ++ [first afterLength])) = first afterWidth := by
    rw [← List.append_assoc, first_append_first, List.append_assoc, ← hl, ← hp]
  have hfromWidth : first (width.spell ++ (precision.spell ++ (length.spell ++ [first afterLength]))) =
      first afterFlags := by
    rw [← List.append_assoc, ← List.append_assoc, first_append_first, List.append_assoc, List.append_assoc, ← hl, ← hp,
      ← hw]
  refine ⟨⟨fs, width, precision, length, first afterLength⟩, ⟨?_, ?_, ?_, hlength⟩, ?_⟩
  · exact (congrArg (setFlag · {}) hfromWidth).trans hflags
  · exact Eq.mpr (congrArg (Width.EndsBefore · width) hfromPrecision) hwidth
  · exact Eq.mpr (congrArg (Precision.EndsBefore · precision) hfromLength) hprecision
  · have hall : cs = fs.map FlagChar.char ++ (width.spell ++ (precision.spell ++ (length.spell ++ afterLength))) := by
      rw [← hl, ← hp, ← hw, ← hfs]
    cases afterLength with
    | nil =>
      refine Or.inr ⟨rfl, ?_⟩
      rw [hall, List.append_nil]
      simp [Directive.spell, Directive.fromWidth, Directive.fromPrecision, Directive.fromLength, first]
    | cons c rest =>
      refine Or.inl ⟨rest, ?_, ?_⟩
      · rw [hall]
        simp [Directive.spell, Directive.fromWidth, Directive.fromPrecision, Directive.fromLength, first]
      · rw [hall]
        simp [first]

/-- **Every string is a list of pieces, or dangles.** -/
theorem exists_pieces (cs : List (BitVec 8)) (hcs : ∀ c ∈ cs, c ≠ 0) :
    (∃ ps, (∀ p ∈ ps, Piece.Proper p) ∧ cs = spellAll ps) ∨ Dangles cs := by
  induction hn : cs.length using Nat.strongRecOn generalizing cs with
  | ind n ih =>
    subst hn
    cases cs with
    | nil => exact Or.inl ⟨[], fun p hp => absurd hp List.not_mem_nil, rfl⟩
    | cons c cs =>
      -- what is in front of the rest is put in front of its pieces
      have hcons : ∀ (p : Piece) (rest : List (BitVec 8)), p.Proper → c :: cs = p.spell ++ rest →
          rest.length < (c :: cs).length →
          (∃ ps, (∀ p ∈ ps, Piece.Proper p) ∧ c :: cs = spellAll ps) ∨ Dangles (c :: cs) := by
        intro p rest hp heq hlt
        have hrest : ∀ c ∈ rest, c ≠ 0 := fun d hd => hcs d (by
          rw [heq]
          exact List.mem_append_right _ hd)
        have hproper : ∀ {ps : List Piece}, (∀ q ∈ ps, q.Proper) → ∀ q ∈ p :: ps, q.Proper := by
          intro ps hps q hq
          cases List.mem_cons.1 hq with
          | inl hq => rw [hq]; exact hp
          | inr hq => exact hps q hq
        rcases ih rest.length hlt rest hrest rfl with ⟨ps, hps, hspell⟩ | ⟨ps, d, hps, hd, hnul, hspell⟩
        · exact Or.inl ⟨p :: ps, hproper hps, by rw [heq, hspell]; rfl⟩
        · refine Or.inr ⟨p :: ps, d, hproper hps, hd, hnul, ?_⟩
          rw [heq, List.append_assoc, hspell, ← List.append_assoc]
          rfl
      by_cases hpercent : c = ch '%'
      · subst hpercent
        obtain ⟨d, hd, ⟨rest, hspell, hspec⟩ | ⟨hnul, hspell⟩⟩ := exists_directive cs
        · refine hcons (.directive d) rest ⟨hd, hcs _ (List.mem_cons_of_mem _ hspec)⟩ hspell ?_
          rw [hspell, Directive.spell, List.cons_append, List.length_cons, List.length_append]
          omega
        · exact Or.inr ⟨[], d, fun p hp => absurd hp List.not_mem_nil, hd, hnul, hspell⟩
      · exact hcons (.text c) cs ⟨hcs c List.mem_cons_self, hpercent⟩ rfl (Nat.lt_succ_self _)

theorem toInt32_ne_succ (x : Nat) : toInt32 x ≠ toInt32 (wrap32 (x + 1)) := by
  unfold toInt32 wrap32
  split <;> split <;> omega

/-- **The result depends on what lies behind the string exactly when the string dangles.** -/
theorem vsnprintf_stays_inside_iff {σ : Type} (mem : Bytes) (hzero : ∃ a < 2 ^ 32, mem a = 0) (o : Output σ)
    (cs : List (BitVec 8)) (hcs : ∀ c ∈ cs, c ≠ 0) (va : VaList) (s : σ) :
    (∃ r, ∀ rest, VsnprintfReturns (.fixed mem) o (prepend cs (CString.cons 0 rest)) va s r) ↔ ¬ Dangles cs := by
  constructor
  · rintro ⟨r, hr⟩ ⟨ps, d, hps, hd, hnul, hspell⟩
    have hjoin : ∀ rest, prepend cs (CString.cons 0 rest) = prepend (spellAll ps) (prepend d.spell rest) := by
      intro rest
      rw [← CString.prepend_append, ← hspell, CString.prepend_append]
      rfl
    -- the `NUL` was the specifier: control is back at the `while`, behind the string
    have hreach : ∀ rest, Reaches (vsnprintfRound (.fixed mem) o.forBuffer)
        ⟨.text, prepend (spellAll ps) (prepend d.spell rest), va, ⟨0, s⟩⟩
        ⟨.text, rest, (d.text mem (argsAfter mem ps va)).2, o.forBuffer.puts (d.text mem (argsAfter mem ps va)).1
          (o.forBuffer.puts (render mem ps va) ⟨0, s⟩)⟩ := by
      intro rest
      have hpieces := reaches_pieces (R := .fixed mem) o.forBuffer hzero va ⟨0, s⟩ hps
        fun pre _ => fixed_readsPieces ps va (prepend d.spell rest)
      have hdirective := reaches_directive (R := .fixed mem) o.forBuffer hzero hd (argsAfter mem ps va)
        (o.forBuffer.puts (render mem ps va) ⟨0, s⟩) (fixed_reads d.spell rest) fun _ _ _ _ _ _ => rfl
      rw [fixed_skip] at hpieces hdirective
      exact Reaches.trans hpieces hdirective
    have hend := Reaches.returns (hreach fun _ => 0) (Loops.returns_of_inr (textRound_nul o.forBuffer rfl))
    have hmore := Reaches.returns (hreach (CString.cons (ch 'a') fun _ => 0))
      (Loops.returns_of_inl (textRound_char o.forBuffer rfl (show ch 'a' ≠ 0 by decide)
        (show ch 'a' ≠ ch '%' by decide)) (Loops.returns_of_inr (textRound_nul o.forBuffer rfl)))
    have hr0 := hr fun _ => 0
    have hr1 := hr (CString.cons (ch 'a') fun _ => 0)
    rw [VsnprintfReturns, hjoin] at hr0 hr1
    have heq := (hr0.unique hend).symm.trans (hr1.unique hmore)
    exact toInt32_ne_succ _ (congrArg Prod.fst heq)
  · intro hnot
    rcases exists_pieces cs hcs with ⟨ps, hps, rfl⟩ | hdangles
    · exact ⟨_, fun rest => vsnprintf_renders mem hzero o ps hps rest va s⟩
    · exact absurd hdangles hnot

/-- `"100%"` runs on behind its end. -/
theorem vsnprintf_stays_inside_iff_hundredPercent :
    (∃ r, ∀ rest, VsnprintfReturns (.fixed zeroMemory) ⟨outChar, 8, 100⟩
      (prepend ("100%".toList.map ch) (CString.cons 0 rest)) (fun _ => 0) [] r) ↔ ¬ Dangles ("100%".toList.map ch) :=
  vsnprintf_stays_inside_iff zeroMemory zeroMemory_nul ⟨outChar, 8, 100⟩ ("100%".toList.map ch) (by decide) _ []

end RiscvOs

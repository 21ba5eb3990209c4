import RiscvOs.CStrings
/-!
# What `printf` writes to (`klibc/printf.c`)

Every conversion hands its characters to an output function one after the other, with an index that counts them.  So
what a conversion writes is a list of characters (`Output.puts`), whatever the output function does with them.
`printf.h` switches the floating-point conversions and `long long` off.
-/
namespace RiscvOs

/-- A character of a format. -/
def ch (c : Char) : BitVec 8 := BitVec.ofNat 8 c.toNat

/-- The `FLAGS_*` bits that are left without the floating-point conversions. -/
structure Flags where
  zeropad : Bool := false
  left : Bool := false
  plus : Bool := false
  space : Bool := false
  hash : Bool := false
  uppercase : Bool := false
  char : Bool := false
  short : Bool := false
  long : Bool := false
  longLong : Bool := false
  precision : Bool := false
deriving DecidableEq, Repr

/-- `out_fct_type`; the state is what the function acts on. -/
abbrev OutFct (σ : Type) := (character : BitVec 8) → (buffer idx maxlen : Nat) → σ → σ

def outBuffer : OutFct Bytes := fun character buffer idx maxlen m =>
  if idx < maxlen then Function.update m (wrap32 (buffer + idx)) character else m

def outNull {σ : Type} : OutFct σ := fun _ _ _ _ s => s

/-- The state is what `_putchar` has been given so far. -/
def outChar : OutFct (List (BitVec 8)) := fun character _ _ _ s =>
  if character ≠ 0 then s ++ [character] else s

/-- `_out_fct`; `fct` is the function in the wrapper that `buffer` points to. -/
def outFct {σ : Type} (fct : BitVec 8 → σ → σ) : OutFct σ := fun character _ _ _ s =>
  if character ≠ 0 then fct character s else s

/-- The three arguments every conversion passes on. -/
structure Output (σ : Type) where
  out : OutFct σ
  buffer : Nat
  maxlen : Nat

/-- `idx`, and what the output function has done up to it. -/
structure Written (σ : Type) where
  idx : Nat
  state : σ

namespace Output

variable {σ : Type} (o : Output σ)

/-- `out(character, buffer, idx++, maxlen)`. -/
def put (character : BitVec 8) (w : Written σ) : Written σ where
  idx := wrap32 (w.idx + 1)
  state := o.out character o.buffer w.idx o.maxlen w.state

def puts : List (BitVec 8) → Written σ → Written σ
  | [], w      => w
  | c :: cs, w => puts cs (o.put c w)

/-- A loop that pads with this many spaces. -/
def spaces : Nat → Written σ → Written σ
  | 0, w     => w
  | n + 1, w => spaces n (o.put (ch ' ') w)

/-- `_out_rev`; `buf` with its last character first. -/
def outRev (buf : List (BitVec 8)) (width : Nat) (flags : Flags) (w : Written σ) : Written σ :=
  let padded := if !flags.left && !flags.zeropad then o.spaces (width - buf.length) w else w
  let reversed := o.puts buf padded
  -- `while (idx - start_idx < width)`
  if flags.left then o.spaces (width - sub32 reversed.idx w.idx) reversed else reversed

end Output

/-- The characters `_out_rev` writes. -/
def fieldText (buf : List (BitVec 8)) (width : Nat) (flags : Flags) : List (BitVec 8) :=
  (if !flags.left && !flags.zeropad then List.replicate (width - buf.length) (ch ' ') else []) ++ buf ++
    (if flags.left then List.replicate (width - buf.length) (ch ' ') else [])

namespace Output

section

variable {σ : Type} (o : Output σ)

theorem puts_append : ∀ (cs ds : List (BitVec 8)) (w : Written σ), o.puts (cs ++ ds) w = o.puts ds (o.puts cs w)
  | [], _, _       => rfl
  | c :: cs, ds, w => puts_append cs ds (o.put c w)

theorem spaces_eq_puts : ∀ (n : Nat) (w : Written σ), o.spaces n w = o.puts (List.replicate n (ch ' ')) w
  | 0, _     => rfl
  | n + 1, w => spaces_eq_puts n (o.put (ch ' ') w)

theorem wrap32_puts_idx : ∀ (cs : List (BitVec 8)) (w : Written σ),
    wrap32 (o.puts cs w).idx = wrap32 (w.idx + cs.length)
  | [], _      => rfl
  | c :: cs, w => by
    have hidx : (o.put c w).idx = wrap32 (w.idx + 1) := rfl
    rw [puts, wrap32_puts_idx cs, hidx, List.length_cons]
    unfold wrap32
    omega

theorem puts_idx {cs : List (BitVec 8)} {w : Written σ} (h : w.idx + cs.length < 2 ^ 32) :
    (o.puts cs w).idx = w.idx + cs.length := by
  induction cs generalizing w with
  | nil => rfl
  | cons c cs ih =>
    rw [List.length_cons] at h
    have hidx : (o.put c w).idx = w.idx + 1 := wrap32_of_lt (by omega)
    rw [puts, ih (by omega), hidx, List.length_cons]
    omega

/-- Counting from `start_idx` modulo `2 ^ 32` counts the characters. -/
theorem sub32_puts_idx {cs : List (BitVec 8)} (h : cs.length < 2 ^ 32) (w : Written σ) :
    sub32 (o.puts cs w).idx w.idx = cs.length := by
  have hwrap := o.wrap32_puts_idx cs w
  unfold wrap32 at hwrap
  unfold sub32
  omega

/-- **`_out_rev` writes its field**. -/
theorem outRev_eq {buf : List (BitVec 8)} (h : buf.length < 2 ^ 32) (width : Nat) (flags : Flags) (w : Written σ) :
    o.outRev buf width flags w = o.puts (fieldText buf width flags) w := by
  unfold outRev fieldText
  cases hl : flags.left with
  | true =>
    simp only [Bool.not_true, Bool.false_and, Bool.false_eq_true, if_false, if_true, List.nil_append]
    rw [o.sub32_puts_idx h, spaces_eq_puts, puts_append]
  | false =>
    simp only [Bool.not_false, Bool.true_and, Bool.false_eq_true, if_false, List.append_nil]
    cases flags.zeropad with
    | true => rfl
    | false =>
      simp only [Bool.not_false, if_true]
      rw [spaces_eq_puts, puts_append]

end

end Output

/-! ## The output functions -/

section

variable {σ : Type}

theorem puts_outNull (buffer maxlen : Nat) : ∀ (cs : List (BitVec 8)) (w : Written σ),
    ((Output.mk outNull buffer maxlen).puts cs w).state = w.state
  | [], _      => rfl
  | c :: cs, w => puts_outNull buffer maxlen cs ((Output.mk outNull buffer maxlen).put c w)

/-- `_putchar` is not given the `NUL` characters. -/
theorem puts_outChar (buffer maxlen : Nat) : ∀ (cs : List (BitVec 8)) (w : Written (List (BitVec 8))),
    ((Output.mk outChar buffer maxlen).puts cs w).state = w.state ++ cs.filter (· ≠ 0)
  | [], w      => (List.append_nil w.state).symm
  | c :: cs, w => by
    have hput : ((Output.mk outChar buffer maxlen).put c w).state = if c ≠ 0 then w.state ++ [c] else w.state := rfl
    rw [Output.puts, puts_outChar buffer maxlen cs, hput]
    by_cases hc : c = 0
    · rw [if_neg (not_not.2 hc), List.filter_cons_of_neg (by simpa using hc)]
    · rw [if_pos hc, List.filter_cons_of_pos (by simpa using hc), List.append_assoc, List.singleton_append]

/-- **`_out_buffer` fills the buffer up to the bound**, and writes nothing else. -/
theorem puts_outBuffer (buffer maxlen : Nat) : ∀ (cs : List (BitVec 8)) (w : Written Bytes) (a : Nat),
    w.idx + cs.length < 2 ^ 32 → buffer + min maxlen (w.idx + cs.length) ≤ 2 ^ 32 →
      ((Output.mk outBuffer buffer maxlen).puts cs w).state a =
        if buffer + w.idx ≤ a ∧ a < buffer + min maxlen (w.idx + cs.length) then cs.getD (a - (buffer + w.idx)) 0
        else w.state a
  | [], w, a, _, _ => by
    rw [if_neg]
    · rfl
    · rw [List.length_nil]
      omega
  | c :: cs, w, a, h, hend => by
    rw [List.length_cons] at h hend
    have hidx : ((Output.mk outBuffer buffer maxlen).put c w).idx = w.idx + 1 := wrap32_of_lt (by omega)
    rw [Output.puts, puts_outBuffer buffer maxlen cs _ a (by rw [hidx]; omega) (by rw [hidx]; omega), hidx,
      List.length_cons]
    by_cases ha : buffer + (w.idx + 1) ≤ a ∧ a < buffer + min maxlen (w.idx + 1 + cs.length)
    · obtain ⟨k, hk⟩ : ∃ k, a - (buffer + w.idx) = k + 1 := ⟨a - (buffer + w.idx) - 1, by omega⟩
      rw [if_pos ha, if_pos (by omega), hk, List.getD_cons_succ]
      congr 1
      omega
    · have hput : ((Output.mk outBuffer buffer maxlen).put c w).state =
          if w.idx < maxlen then Function.update w.state (wrap32 (buffer + w.idx)) c else w.state := rfl
      rw [if_neg ha, hput]
      by_cases hroom : w.idx < maxlen
      · rw [if_pos hroom, wrap32_of_lt (by omega), Function.update_apply]
        by_cases hhere : a = buffer + w.idx
        · rw [if_pos hhere, if_pos (by omega), hhere, Nat.sub_self, List.getD_cons_zero]
        · rw [if_neg hhere, if_neg (by omega)]
      · rw [if_neg hroom, if_neg (by omega)]

end

end RiscvOs

import RiscvOs.CStrings
import RiscvOs.LittleEndian
/-!
# `strlen` (`boot/crt0.c`)

Bytes up to the next aligned address, then words, each searched for a `NUL` through four masks.  Every load is kept
(`Load`).
-/
namespace RiscvOs

open Loops (Returns)

inductive Load where
  | byte (p : Nat)
  | word (p : Nat)
deriving DecidableEq, Repr

/-- `((uintptr_t)s & ~(sizeof(uintptr_t) - 1)) + sizeof(reg_t)`. -/
def nextAlignedAddr (s : Nat) : Nat := wrap32 ((s &&& (2 ^ 32 - (3 + 1))) + 4)

/-- The loop up to the aligned address, with `left` bytes to go, at `p`; `none` when it gets there. -/
def strlenBytes (m : Bytes) (s : Nat) : (left p : Nat) → Option Nat × List Load
  | 0, _        => (none, [])
  | left + 1, p =>
    if m p = 0 then (some (sub32 p s), [.byte p])
    else
      let r := strlenBytes m s left (wrap32 (p + 1))
      (r.1, .byte p :: r.2)

/-- `0xFFull << (i * CHAR_BIT)`, as a `reg_t`. -/
def chunkMask (i : Nat) : BitVec 32 := (0xff#64 <<< (i * 8)).setWidth 32

/-- The search of a word with `left` bytes to go, at byte `i`. -/
def strlenChunk (chunk : BitVec 32) : (left i : Nat) → Option Nat
  | 0, _        => none
  | left + 1, i => if chunk &&& chunkMask i = 0 then some i else strlenChunk chunk left (i + 1)

structure StrlenLoop where
  ptr : Nat
  length : Nat
  loads : List Load

/-- A round of the loop over words. -/
def strlenRound (m : Bytes) (c : StrlenLoop) : StrlenLoop ⊕ (Nat × List Load) :=
  let chunk : BitVec 32 := LittleEndian.load m c.ptr
  let loads := c.loads ++ [.word c.ptr]
  match strlenChunk chunk 4 0 with
  | some i => .inr (wrap32 (c.length + i), loads)
  | none   => .inl ⟨wrap32 (c.ptr + 4), wrap32 (c.length + 4), loads⟩

/-- What comes before the loop over words: it returns, or enters the loop. -/
def strlenEntry (m : Bytes) (s : Nat) : StrlenLoop ⊕ (Nat × List Load) :=
  if s % 4 ≠ 0 then
    let next := nextAlignedAddr s
    match strlenBytes m s (next - s) s with
    | (some n, loads) => .inr (n, loads)
    | (none, loads)   => .inl ⟨next, sub32 next s, loads⟩
  else .inl ⟨s, 0, []⟩

/-- `strlen`, if it returns within so many rounds of its loop. -/
def strlen (m : Bytes) (s rounds : Nat) : Option (Nat × List Load) :=
  match strlenEntry m s with
  | .inr r => some r
  | .inl c => Loops.run (strlenRound m) rounds c

/-- A round of the scan byte by byte. -/
def scanRound (m : Bytes) (s p : Nat) : Nat ⊕ Nat := if m p = 0 then .inr (sub32 p s) else .inl (wrap32 (p + 1))

/-! ## A word and its bytes -/

theorem getLsbD_chunkMask (i j : Nat) :
    (chunkMask i).getLsbD j = (decide (j < 32) && decide (8 * i ≤ j ∧ j < 8 * i + 8)) := by
  have hones : ∀ k, (0xff#64).getLsbD k = decide (k < 8) := by
    intro k
    rw [BitVec.getLsbD_ofNat, show 0xff = 2 ^ 8 - 1 by rfl, Nat.testBit_two_pow_sub_one]
    by_cases hk : k < 8
    · simp [hk, show k < 64 by omega]
    · simp [hk]
  unfold chunkMask
  rw [BitVec.getLsbD_setWidth, BitVec.getLsbD_shiftLeft, hones]
  by_cases hj : j < 32
  · rw [decide_eq_true hj, decide_eq_true (show j < 64 by omega), Bool.true_and, Bool.true_and, Bool.true_and]
    by_cases hge : 8 * i ≤ j
    · have hsub : j - i * 8 < 8 ↔ j < 8 * i + 8 := by omega
      simp [hge, hsub, show ¬ j < i * 8 by omega]
    · simp [hge, show j < i * 8 by omega]
  · simp [hj]

/-- A mask picks out one byte. -/
theorem and_chunkMask_eq_zero_iff {x : BitVec 32} {i : Nat} (hi : i < 4) :
    x &&& chunkMask i = 0 ↔ x.extractLsb' (8 * i) 8 = 0 := by
  constructor
  · intro h
    apply BitVec.eq_of_getLsbD_eq
    intro j hj
    have hbit := congrArg (fun y => y.getLsbD (8 * i + j)) h
    simp only [BitVec.getLsbD_and, getLsbD_chunkMask] at hbit
    rw [BitVec.getLsbD_extractLsb', decide_eq_true hj, Bool.true_and]
    simpa [show 8 * i + j < 32 by omega, hj] using hbit
  · intro h
    apply BitVec.eq_of_getLsbD_eq
    intro j hj
    rw [BitVec.getLsbD_and, getLsbD_chunkMask]
    by_cases hin : 8 * i ≤ j ∧ j < 8 * i + 8
    · have hbit := congrArg (fun y => y.getLsbD (j - 8 * i)) h
      simp only [BitVec.getLsbD_extractLsb', show 8 * i + (j - 8 * i) = j by omega] at hbit
      rw [decide_eq_true hj, decide_eq_true hin]
      simpa [show j - 8 * i < 8 by omega] using hbit
    · simp [hin]

section

variable {m : Bytes} {p : Nat}

theorem load_and_chunkMask_eq_zero_iff {i : Nat} (hi : i < 4) :
    (LittleEndian.load m p : BitVec 32) &&& chunkMask i = 0 ↔ m (p + i) = 0 := by
  rw [and_chunkMask_eq_zero_iff hi, LittleEndian.extract_load (by decide) hi]

theorem strlenChunk_of_none : ∀ {left i : Nat}, i + left ≤ 4 → (∀ j < i + left, i ≤ j → m (p + j) ≠ 0) →
    strlenChunk (LittleEndian.load m p) left i = none
  | 0, _, _, _ => rfl
  | left + 1, i, hle, h => by
    have hbyte : m (p + i) ≠ 0 := h i (by omega) (Nat.le_refl i)
    rw [strlenChunk, if_neg ((load_and_chunkMask_eq_zero_iff (by omega)).not.2 hbyte)]
    exact strlenChunk_of_none (by omega) fun j hj hij => h j (by omega) (by omega)

theorem strlenChunk_of_first {k : Nat} (hk : m (p + k) = 0) : ∀ {left i : Nat}, i + left ≤ 4 → i ≤ k → k < i + left →
    (∀ j < k, i ≤ j → m (p + j) ≠ 0) → strlenChunk (LittleEndian.load m p) left i = some k
  | 0, i, _, hik, hki, _ => absurd hki (by omega)
  | left + 1, i, hle, hik, hki, h => by
    rw [strlenChunk]
    rcases Nat.eq_or_lt_of_le hik with rfl | hlt
    · rw [if_pos ((load_and_chunkMask_eq_zero_iff (by omega)).2 hk)]
    · have hbyte : m (p + i) ≠ 0 := h i hlt (Nat.le_refl i)
      rw [if_neg ((load_and_chunkMask_eq_zero_iff (by omega)).not.2 hbyte)]
      exact strlenChunk_of_first hk (by omega) hlt (by omega) fun j hj hij => h j hj (by omega)

end

/-! ## The string -/

/-- The string at `s` ends with the `NUL` at `e`. -/
def EndsAt (m : Bytes) (s e : Nat) : Prop := IsLeast {p | s ≤ p ∧ m p = 0} e

/-- A byte of the string or its terminator, or an aligned word with such a byte in it. -/
def Load.Within (s e : Nat) : Load → Prop
  | .byte p => s ≤ p ∧ p ≤ e
  | .word p => p % 4 = 0 ∧ ∃ q, s ≤ q ∧ q ≤ e ∧ p ≤ q ∧ q < p + 4

section

variable {m : Bytes} {s e p : Nat}

theorem exists_endsAt {a : Nat} (hsa : s ≤ a) (h0 : m a = 0) : ∃ e ≤ a, EndsAt m s e := by
  have hex : ∃ p, s ≤ p ∧ m p = 0 := ⟨a, hsa, h0⟩
  have hleast := Nat.isLeast_find hex
  exact ⟨Nat.find hex, hleast.2 ⟨hsa, h0⟩, hleast⟩

theorem EndsAt.ne_zero (h : EndsAt m s e) (hs : s ≤ p) (hp : p < e) : m p ≠ 0 := fun h0 =>
  absurd (h.2 ⟨hs, h0⟩) (Nat.not_le.2 hp)

/-- **The scan byte by byte** returns the distance to the terminator. -/
theorem scan_returns (he : EndsAt m s e) (hlt : e < 2 ^ 32) : Returns (scanRound m s) s (e - s) := by
  have hfrom : ∀ k, k ≤ e - s → Returns (scanRound m s) (e - k) (e - s) := by
    intro k
    induction k with
    | zero =>
      intro _
      apply Loops.returns_of_inr
      rw [scanRound, Nat.sub_zero, if_pos he.1.2, sub32_of_le he.1.1 hlt]
    | succ k ih =>
      intro hk
      refine Loops.returns_of_inl ?_ (ih (by omega))
      have hnext : wrap32 (e - (k + 1) + 1) = e - k := by
        rw [wrap32_of_lt (by omega)]
        omega
      rw [scanRound, if_neg (he.ne_zero (by omega) (by omega)), hnext]
  have hall := hfrom (e - s) (Nat.le_refl _)
  rwa [Nat.sub_sub_self he.1.1] at hall

/-! ## The loop over words -/

/-- So far into the string the loop over words has come. -/
structure StrlenAt (s e : Nat) (c : StrlenLoop) : Prop where
  aligned : c.ptr % 4 = 0
  inside : s ≤ c.ptr ∧ c.ptr ≤ e
  length : c.length = c.ptr - s
  loads : ∀ ld ∈ c.loads, ld.Within s e

/-- What `strlen` is to return, and the loads it may make. -/
def StrlenResult (s e : Nat) (r : Nat × List Load) : Prop := r.1 = e - s ∧ ∀ ld ∈ r.2, ld.Within s e

theorem StrlenAt.loads_next {c : StrlenLoop} (h : StrlenAt s e c) : ∀ ld ∈ c.loads ++ [.word c.ptr], ld.Within s e := by
  intro ld hld
  cases List.mem_append.1 hld with
  | inl hld => exact h.loads ld hld
  | inr hld =>
    obtain rfl := List.mem_singleton.1 hld
    exact ⟨h.aligned, c.ptr, h.inside.1, h.inside.2, Nat.le_refl _, by omega⟩

theorem strlenRound_of_some {c : StrlenLoop} {i : Nat} (h : strlenChunk (LittleEndian.load m c.ptr) 4 0 = some i) :
    strlenRound m c = .inr (wrap32 (c.length + i), c.loads ++ [.word c.ptr]) := by
  unfold strlenRound
  simp only [h]

theorem strlenRound_of_none {c : StrlenLoop} (h : strlenChunk (LittleEndian.load m c.ptr) 4 0 = none) :
    strlenRound m c = .inl ⟨wrap32 (c.ptr + 4), wrap32 (c.length + 4), c.loads ++ [.word c.ptr]⟩ := by
  unfold strlenRound
  simp only [h]

/-- **A round** finds the terminator in the word, or goes on to the next, which is still in the string. -/
theorem StrlenAt.round (he : EndsAt m s e) (hlt : e < 2 ^ 32) {c : StrlenLoop} (h : StrlenAt s e c) :
    (∃ r, strlenRound m c = .inr r ∧ StrlenResult s e r) ∨
      ∃ c', strlenRound m c = .inl c' ∧ StrlenAt s e c' ∧ e - c'.ptr < e - c.ptr := by
  have hinside := h.inside
  have hlength := h.length
  by_cases hin : e < c.ptr + 4
  · -- the terminator is in this word
    have hk : m (c.ptr + (e - c.ptr)) = 0 := by
      rw [Nat.add_sub_cancel' hinside.2]
      exact he.1.2
    have hchunk : strlenChunk (LittleEndian.load m c.ptr) 4 0 = some (e - c.ptr) :=
      strlenChunk_of_first hk (by omega) (Nat.zero_le _) (by omega) fun j hj _ => he.ne_zero (by omega) (by omega)
    refine Or.inl ⟨_, strlenRound_of_some hchunk, ?_, h.loads_next⟩
    rw [wrap32_of_lt (by omega), hlength]
    omega
  · have hchunk : strlenChunk (LittleEndian.load m c.ptr) 4 0 = none :=
      strlenChunk_of_none (by omega) fun j hj _ => he.ne_zero (by omega) (by omega)
    have hround : strlenRound m c = .inl ⟨c.ptr + 4, c.length + 4, c.loads ++ [.word c.ptr]⟩ := by
      rw [strlenRound_of_none hchunk, wrap32_of_lt (by omega), wrap32_of_lt (by omega)]
    have haligned : (c.ptr + 4) % 4 = 0 := by rw [Nat.add_mod_right, h.aligned]
    have hreached : s ≤ c.ptr + 4 ∧ c.ptr + 4 ≤ e := by omega
    have hcount : c.length + 4 = c.ptr + 4 - s := by omega
    have hless : e - (c.ptr + 4) < e - c.ptr := by omega
    exact Or.inr ⟨_, hround, ⟨haligned, hreached, hcount, h.loads_next⟩, hless⟩

/-! ## The bytes before it -/

theorem and_low_two (h : s < 2 ^ 32) : s &&& (2 ^ 32 - (3 + 1)) = s / 4 * 4 := by
  have hpow : s / 4 * 4 = s / 2 ^ 2 * 2 ^ 2 := rfl
  have hthree : ∀ i, Nat.testBit 3 i = decide (i < 2) := Nat.testBit_two_pow_sub_one 2
  rw [hpow]
  apply Nat.eq_of_testBit_eq
  intro i
  rw [Nat.testBit_and, Nat.testBit_two_pow_sub_succ (by decide), Nat.testBit_mul_two_pow, Nat.testBit_div_two_pow,
    hthree]
  by_cases hi : i < 32
  · by_cases h2 : 2 ≤ i
    · rw [Nat.sub_add_cancel h2, decide_eq_true hi, decide_eq_true h2, decide_eq_false (Nat.not_lt.2 h2),
        Bool.not_false, Bool.and_self, Bool.and_true, Bool.true_and]
    · rw [decide_eq_true (Nat.not_le.1 h2), decide_eq_false h2, Bool.not_true, Bool.and_false, Bool.and_false,
        Bool.false_and]
  · have hbeyond : s.testBit i = false :=
      Nat.testBit_lt_two_pow (Nat.lt_of_lt_of_le h (Nat.pow_le_pow_right (by decide) (Nat.not_lt.1 hi)))
    rw [Nat.sub_add_cancel (show 2 ≤ i by omega), hbeyond, Bool.false_and, Bool.and_false]

theorem nextAlignedAddr_eq (h : s < 2 ^ 32 - 4) : nextAlignedAddr s = s / 4 * 4 + 4 := by
  unfold nextAlignedAddr
  rw [and_low_two (by omega), wrap32_of_lt (by omega)]

/-- **The prologue** finds the terminator, or has read string only. -/
theorem strlenBytes_spec (he : EndsAt m s e) (hlt : e < 2 ^ 32) : ∀ (left : Nat) {p : Nat}, s ≤ p → p ≤ e →
    (∀ ld ∈ (strlenBytes m s left p).2, ld.Within s e) ∧
      ((strlenBytes m s left p).1 = some (e - s) ∨ (strlenBytes m s left p).1 = none ∧ p + left ≤ e)
  | 0, p, _, hp => ⟨fun _ hld => absurd hld List.not_mem_nil, Or.inr ⟨rfl, hp⟩⟩
  | left + 1, p, hs, hp => by
    have hread : (Load.byte p).Within s e := ⟨hs, hp⟩
    rw [strlenBytes]
    by_cases h0 : m p = 0
    · obtain rfl : p = e := Nat.le_antisymm hp (he.2 ⟨hs, h0⟩)
      rw [if_pos h0]
      refine ⟨fun ld hld => ?_, Or.inl ?_⟩
      · obtain rfl := List.mem_singleton.1 hld
        exact hread
      · rw [sub32_of_le hs hlt]
    · have hpe : p + 1 ≤ e := by
        rcases Nat.eq_or_lt_of_le hp with rfl | h
        · exact absurd he.1.2 h0
        · exact h
      rw [if_neg h0, wrap32_of_lt (by omega)]
      obtain ⟨hloads, hret⟩ := strlenBytes_spec he hlt left (Nat.le_succ_of_le hs) hpe
      refine ⟨fun ld hld => ?_, ?_⟩
      · cases List.mem_cons.1 hld with
        | inl h => exact h ▸ hread
        | inr h => exact hloads ld h
      · rwa [Nat.succ_add_eq_add_succ] at hret

/-- **What comes before the loop** returns the length, or enters the loop in the string. -/
theorem strlenEntry_spec (he : EndsAt m s e) (hlt : e < 2 ^ 32 - 4) :
    (∃ r, strlenEntry m s = .inr r ∧ StrlenResult s e r) ∨ ∃ c, strlenEntry m s = .inl c ∧ StrlenAt s e c := by
  have hse : s ≤ e := he.1.1
  have hnext : nextAlignedAddr s = s / 4 * 4 + 4 := nextAlignedAddr_eq (by omega)
  unfold strlenEntry
  by_cases hs : s % 4 = 0
  · rw [if_neg (not_not.2 hs)]
    refine Or.inr ⟨_, rfl, hs, ⟨Nat.le_refl s, hse⟩, (Nat.sub_self s).symm, fun _ hld => absurd hld List.not_mem_nil⟩
  · rw [if_pos hs]
    obtain ⟨hloads, hret⟩ := strlenBytes_spec he (by omega) (nextAlignedAddr s - s) (Nat.le_refl s) hse
    cases hb : strlenBytes m s (nextAlignedAddr s - s) s with
    | mk found loads =>
      rw [hb] at hloads hret
      rcases hret with rfl | ⟨rfl, hreached⟩
      · exact Or.inl ⟨(e - s, loads), by simp only [hb], rfl, hloads⟩
      · have haligned : nextAlignedAddr s % 4 = 0 := by omega
        have hinside : s ≤ nextAlignedAddr s ∧ nextAlignedAddr s ≤ e := by omega
        have hlength : sub32 (nextAlignedAddr s) s = nextAlignedAddr s - s := sub32_of_le hinside.1 (by omega)
        exact Or.inr ⟨⟨nextAlignedAddr s, sub32 (nextAlignedAddr s) s, loads⟩, by simp only [hb], haligned, hinside,
          hlength, hloads⟩

theorem strlen_result (he : EndsAt m s e) (hlt : e < 2 ^ 32 - 4) :
    ∃ rounds r, strlen m s rounds = some r ∧ StrlenResult s e r := by
  unfold strlen
  rcases strlenEntry_spec he hlt with ⟨r, hr, hres⟩ | ⟨c, hc, hat⟩
  · rw [hr]
    exact ⟨0, r, rfl, hres⟩
  · rw [hc]
    obtain ⟨r, ⟨rounds, hrun⟩, hres⟩ := Loops.returns_of_variant (I := StrlenAt s e) (fun c => e - c.ptr)
      (fun c hc => hc.round he (by omega)) c hat
    exact ⟨rounds, r, hrun, hres⟩

end

/-- **`strlen` returns, what a scan byte by byte returns, and every load is of the string**: a byte up to the
terminator, or an aligned word with such a byte in it. -/
theorem strlen_like_scan (m : Bytes) (s a : Nat) (hsa : s ≤ a) (ha : a < 2 ^ 32 - 4) (h0 : m a = 0) :
    ∃ e rounds len loads, EndsAt m s e ∧ strlen m s rounds = some (len, loads) ∧ Returns (scanRound m s) s len ∧
      ∀ ld ∈ loads, ld.Within s e := by
  obtain ⟨e, hea, he⟩ := exists_endsAt hsa h0
  obtain ⟨rounds, ⟨len, loads⟩, hrun, rfl, hloads⟩ := strlen_result he (by omega)
  exact ⟨e, rounds, e - s, loads, he, hrun, scan_returns he (by omega), hloads⟩

/-- Six characters at `0x1001`, and nothing but `NUL` elsewhere. -/
def sixLetters : Bytes := fun a => if 0x1001 ≤ a ∧ a < 0x1007 then 0x61 else 0

theorem strlen_like_scan_sixLetters :
    ∃ e rounds len loads, EndsAt sixLetters 0x1001 e ∧ strlen sixLetters 0x1001 rounds = some (len, loads) ∧
      Returns (scanRound sixLetters 0x1001) 0x1001 len ∧ ∀ ld ∈ loads, ld.Within 0x1001 e :=
  strlen_like_scan sixLetters 0x1001 0x1007 (by decide) (by decide) (by decide)

/-- Three bytes up to the aligned address, and the word with the terminator. -/
example : strlen sixLetters 0x1001 1 = some (6, [.byte 0x1001, .byte 0x1002, .byte 0x1003, .word 0x1004]) := by decide

end RiscvOs

import RiscvOs.CStrings
/-!
# `memchr` and `strnlen` (`boot/crt0.c`)

Each function comes with the bytes it reads, in order.  `memchr` compares a byte with an `int`; `strnlen` returns one
less than its bound when there is no `NUL`.
-/
namespace RiscvOs

/-- The addresses of `n` bytes from `s` on. -/
def byteSpan (s n : Nat) : List Nat := (List.range n).map fun i => wrap32 (s + i)

/-- `memchr`; `none` is `NULL`. -/
def memchr (m : Bytes) (ptr : Nat) (ch : Int) : (count : Nat) → Option Nat × List Nat
  | 0         => (none, [])
  | count + 1 =>
    if ((m ptr).toNat : Int) = ch then (some ptr, [ptr])
    else
      let r := memchr m (wrap32 (ptr + 1)) ch count
      (r.1, ptr :: r.2)

/-- The loop of `strnlen` with `left` rounds to go, at `i`. -/
def strnlenFrom (m : Bytes) (s maxlen : Nat) : (left i : Nat) → Nat × List Nat
  | 0, _        => (sub32 maxlen 1, [])
  | left + 1, i =>
    if m.buffer s i = 0 then (i, [wrap32 (s + i)])
    else
      let r := strnlenFrom m s maxlen left (i + 1)
      (r.1, wrap32 (s + i) :: r.2)

def strnlen (m : Bytes) (s maxlen : Nat) : Nat × List Nat := strnlenFrom m s maxlen maxlen 0

theorem wrap32_next (s i : Nat) : wrap32 (wrap32 (s + 1) + i) = wrap32 (s + (i + 1)) := by
  unfold wrap32
  omega

theorem byteSpan_succ {s : Nat} (hs : s < 2 ^ 32) (n : Nat) :
    byteSpan s (n + 1) = s :: byteSpan (wrap32 (s + 1)) n := by
  unfold byteSpan
  rw [List.range_succ_eq_map, List.map_cons, List.map_map, Nat.add_zero, wrap32_of_lt hs]
  congr 1
  apply List.map_congr_left
  intro i _
  exact (wrap32_next s i).symm

theorem mem_byteSpan {s n p : Nat} : p ∈ byteSpan s n ↔ ∃ j < n, p = wrap32 (s + j) := by
  unfold byteSpan
  simp only [List.mem_map, List.mem_range, eq_comm]

theorem getLast?_byteSpan (s n : Nat) : (byteSpan s (n + 1)).getLast? = some (wrap32 (s + n)) := by
  unfold byteSpan
  rw [List.range_succ, List.map_append, List.map_singleton, List.getLast?_concat]

/-- A scan of `n` places finds nothing, or a first one. -/
theorem absent_or_first {P : Nat → Prop} [DecidablePred P] (n : Nat) :
    (∀ i < n, ¬ P i) ∨ ∃ i < n, P i ∧ ∀ j < i, ¬ P j := by
  by_cases h : ∃ i, i < n ∧ P i
  · obtain ⟨hn, hi⟩ := Nat.find_spec h
    refine Or.inr ⟨Nat.find h, hn, hi, fun j hj hj' => ?_⟩
    exact Nat.find_min h hj ⟨Nat.lt_trans hj hn, hj'⟩
  · exact Or.inl fun i hi hP => h ⟨i, hi, hP⟩

/-! ## `memchr` -/

section

variable {m : Bytes} {ch : Int}

theorem memchr_of_absent : ∀ {n s : Nat}, s < 2 ^ 32 → (∀ i < n, ((m.buffer s i).toNat : Int) ≠ ch) →
    memchr m s ch n = (none, byteSpan s n)
  | 0, _, _, _ => rfl
  | n + 1, s, hs, h => by
    have h0 := h 0 (Nat.succ_pos n)
    rw [buffer_zero m hs] at h0
    have hrest := memchr_of_absent (wrap32_lt (s + 1)) fun i hi => by
      rw [buffer_next]
      exact h (i + 1) (Nat.succ_lt_succ hi)
    rw [memchr, if_neg h0, hrest, byteSpan_succ hs]

theorem memchr_of_first : ∀ {n s i : Nat}, s < 2 ^ 32 → i < n → ((m.buffer s i).toNat : Int) = ch →
    (∀ j < i, ((m.buffer s j).toNat : Int) ≠ ch) → memchr m s ch n = (some (wrap32 (s + i)), byteSpan s (i + 1))
  | n + 1, s, 0, hs, _, hi, _ => by
    rw [buffer_zero m hs] at hi
    rw [memchr, if_pos hi, byteSpan_succ hs, Nat.add_zero, wrap32_of_lt hs]
    rfl
  | n + 1, s, i + 1, hs, hn, hi, h => by
    have h0 := h 0 (Nat.succ_pos i)
    rw [buffer_zero m hs] at h0
    have hrest : memchr m (wrap32 (s + 1)) ch n =
        (some (wrap32 (s + (i + 1))), byteSpan (wrap32 (s + 1)) (i + 1)) := by
      rw [← wrap32_next s i]
      refine memchr_of_first (wrap32_lt _) (Nat.lt_of_succ_lt_succ hn) ?_ fun j hj => ?_
      · rwa [buffer_next]
      · rw [buffer_next]
        exact h (j + 1) (Nat.succ_lt_succ hj)
    rw [memchr, if_neg h0, hrest, byteSpan_succ hs (i + 1)]

end

/-- **`memchr` finds the first byte** that is `(unsigned char)ch`, and reads no further. -/
structure FindsByte (m : Bytes) (s n : Nat) (ch : Int) : Prop where
  first : ∀ i, IsLeast {i | i < n ∧ m.buffer s i = BitVec.ofInt 8 ch} i →
    (memchr m s ch n).1 = some (wrap32 (s + i))
  absent : (∀ i < n, m.buffer s i ≠ BitVec.ofInt 8 ch) → (memchr m s ch n).1 = none
  reads : ∃ k ≤ n, (memchr m s ch n).2 = byteSpan s k ∧
    ∀ p, (memchr m s ch n).1 = some p → (byteSpan s k).getLast? = some p

section

variable {m : Bytes} {s n : Nat} {ch : Int}

/-- A byte is an `int` between 0 and 255. -/
theorem toNat_eq_iff_of_char (h0 : 0 ≤ ch) (h1 : ch < 256) (x : BitVec 8) :
    (x.toNat : Int) = ch ↔ x = BitVec.ofInt 8 ch := by
  obtain ⟨c, rfl⟩ := Int.eq_ofNat_of_zero_le h0
  have hc : c < 256 := by omega
  rw [BitVec.ofInt_natCast, BitVec.toNat_eq, BitVec.toNat_ofNat, Nat.mod_eq_of_lt hc]
  omega

theorem toNat_ne_of_not_char (h : ¬ (0 ≤ ch ∧ ch < 256)) (x : BitVec 8) : (x.toNat : Int) ≠ ch := by
  have hlt := x.isLt
  omega

/-- The scan for a byte either finds nothing or stops at the first one. -/
theorem memchr_cases (hs : s < 2 ^ 32) (n : Nat) (ch : Int) :
    (∀ i < n, ((m.buffer s i).toNat : Int) ≠ ch) ∧ memchr m s ch n = (none, byteSpan s n) ∨
      ∃ i < n, ((m.buffer s i).toNat : Int) = ch ∧ (∀ j < i, ((m.buffer s j).toNat : Int) ≠ ch) ∧
        memchr m s ch n = (some (wrap32 (s + i)), byteSpan s (i + 1)) := by
  rcases absent_or_first (P := fun i => ((m.buffer s i).toNat : Int) = ch) n with habsent | ⟨i, hn, hi, hbefore⟩
  · exact Or.inl ⟨habsent, memchr_of_absent hs habsent⟩
  · exact Or.inr ⟨i, hn, hi, hbefore, memchr_of_first hs hn hi hbefore⟩

/-- **The reads of `memchr`** are the bytes up to the pointer it returns, or all it was given. -/
theorem memchr_reads (hs : s < 2 ^ 32) (n : Nat) (ch : Int) :
    ∃ k ≤ n, (memchr m s ch n).2 = byteSpan s k ∧
      ∀ p, (memchr m s ch n).1 = some p → (byteSpan s k).getLast? = some p := by
  rcases memchr_cases hs n ch with ⟨-, hrun⟩ | ⟨i, hi, -, -, hrun⟩
  · refine ⟨n, Nat.le_refl n, by rw [hrun], fun p hp => ?_⟩
    rw [hrun] at hp
    cases hp
  · refine ⟨i + 1, hi, by rw [hrun], fun p hp => ?_⟩
    rw [hrun] at hp
    rw [getLast?_byteSpan]
    exact hp

theorem findsByte_of_char (hs : s < 2 ^ 32) (h0 : 0 ≤ ch) (h1 : ch < 256) : FindsByte m s n ch := by
  have hbyte := toNat_eq_iff_of_char h0 h1
  refine ⟨fun i hi => ?_, fun habsent => ?_, memchr_reads hs n ch⟩
  · have hmatch : ((m.buffer s i).toNat : Int) = ch := (hbyte _).2 hi.1.2
    have hbefore : ∀ j < i, ((m.buffer s j).toNat : Int) ≠ ch := fun j hj heq =>
      absurd (hi.2 ⟨Nat.lt_trans hj hi.1.1, (hbyte _).1 heq⟩) (Nat.not_le.2 hj)
    rw [memchr_of_first hs hi.1.1 hmatch hbefore]
  · rw [memchr_of_absent hs fun i hi heq => habsent i hi ((hbyte _).1 heq)]

/-- Any other `int` is equal to no byte. -/
theorem memchr_of_not_char (hs : s < 2 ^ 32) (h : ¬ (0 ≤ ch ∧ ch < 256)) : (memchr m s ch n).1 = none := by
  rw [memchr_of_absent hs fun i _ => toNat_ne_of_not_char h _]

theorem findsByte_iff (hs : s < 2 ^ 32) :
    FindsByte m s n ch ↔ (0 ≤ ch ∧ ch < 256) ∨ ∀ i < n, m.buffer s i ≠ BitVec.ofInt 8 ch := by
  by_cases hch : 0 ≤ ch ∧ ch < 256
  · exact iff_of_true (findsByte_of_char hs hch.1 hch.2) (Or.inl hch)
  · rw [or_iff_right hch]
    have hnone : (memchr m s ch n).1 = none := memchr_of_not_char hs hch
    constructor
    · intro h i hi heq
      have hex : ∃ i, i < n ∧ m.buffer s i = BitVec.ofInt 8 ch := ⟨i, hi, heq⟩
      have hfound := h.first _ (Nat.isLeast_find hex)
      rw [hnone] at hfound
      cases hfound
    · intro habsent
      exact ⟨fun i hi => absurd hi.1.2 (habsent i hi.1.1), fun _ => hnone, memchr_reads hs n ch⟩

end

/-! ## `strnlen` -/

section

variable {m : Bytes} {s maxlen : Nat}

theorem strnlenFrom_of_none : ∀ {left i : Nat}, (∀ j < left, m.buffer s (i + j) ≠ 0) →
    strnlenFrom m s maxlen left i = (sub32 maxlen 1, (List.range' i left).map fun j => wrap32 (s + j))
  | 0, _, _ => rfl
  | left + 1, i, h => by
    have h0 : m.buffer s i ≠ 0 := h 0 (Nat.succ_pos left)
    have hrest : strnlenFrom m s maxlen left (i + 1) =
        (sub32 maxlen 1, (List.range' (i + 1) left).map fun j => wrap32 (s + j)) := by
      refine strnlenFrom_of_none fun j hj => ?_
      rw [Nat.add_assoc, Nat.add_comm 1 j]
      exact h (j + 1) (Nat.succ_lt_succ hj)
    rw [strnlenFrom, if_neg h0, hrest]
    rfl

theorem strnlenFrom_of_first : ∀ {left i l : Nat}, l < left → m.buffer s (i + l) = 0 →
    (∀ j < l, m.buffer s (i + j) ≠ 0) →
    strnlenFrom m s maxlen left i = (i + l, (List.range' i (l + 1)).map fun j => wrap32 (s + j))
  | left + 1, i, 0, _, hl, _ => by
    rw [Nat.add_zero] at hl
    rw [strnlenFrom, if_pos hl]
    rfl
  | left + 1, i, l + 1, hlt, hl, h => by
    have h0 : m.buffer s i ≠ 0 := h 0 (Nat.succ_pos l)
    have hshift : ∀ j, i + 1 + j = i + (j + 1) := fun j => by omega
    have hrest : strnlenFrom m s maxlen left (i + 1) =
        (i + (l + 1), (List.range' (i + 1) (l + 1)).map fun j => wrap32 (s + j)) := by
      rw [← hshift l]
      refine strnlenFrom_of_first (Nat.lt_of_succ_lt_succ hlt) ?_ fun j hj => ?_
      · rwa [hshift]
      · rw [hshift]
        exact h (j + 1) (Nat.succ_lt_succ hj)
    rw [strnlenFrom, if_neg h0, hrest]
    rfl

/-- **Without a `NUL` `strnlen` returns one less than its bound.** -/
theorem strnlen_of_none (h : ∀ j < maxlen, m.buffer s j ≠ 0) :
    strnlen m s maxlen = (sub32 maxlen 1, byteSpan s maxlen) := by
  unfold strnlen byteSpan
  rw [strnlenFrom_of_none fun j hj => by rw [Nat.zero_add]; exact h j hj, List.range_eq_range']

theorem strnlen_of_first {l : Nat} (hlt : l < maxlen) (hl : m.buffer s l = 0) (h : ∀ j < l, m.buffer s j ≠ 0) :
    strnlen m s maxlen = (l, byteSpan s (l + 1)) := by
  unfold strnlen byteSpan
  rw [strnlenFrom_of_first hlt (by rwa [Nat.zero_add]) fun j hj => by rw [Nat.zero_add]; exact h j hj,
    List.range_eq_range', Nat.zero_add]

/-- The scan either finds no `NUL` or stops at the first one. -/
theorem strnlen_cases (m : Bytes) (s maxlen : Nat) :
    (∀ j < maxlen, m.buffer s j ≠ 0) ∧ strnlen m s maxlen = (sub32 maxlen 1, byteSpan s maxlen) ∨
      ∃ l < maxlen, CString.HasLength (m.buffer s) l ∧ strnlen m s maxlen = (l, byteSpan s (l + 1)) := by
  rcases absent_or_first (P := fun i => m.buffer s i = 0) maxlen with hnone | ⟨l, hlt, hl, hbefore⟩
  · exact Or.inl ⟨hnone, strnlen_of_none hnone⟩
  · have hlength : CString.HasLength (m.buffer s) l := ⟨hl, fun j hj => Nat.not_lt.1 fun hjl => hbefore j hjl hj⟩
    exact Or.inr ⟨l, hlt, hlength, strnlen_of_first hlt hl hbefore⟩

/-- The check of the string-list walkers that `list + length > end`. -/
def RunsOver (m : Bytes) (list stop : Nat) : Prop :=
  wrap32 (list + wrap32 ((strnlen m list (sub32 stop list)).1 + 1)) > stop

/-- **`strnlen` is the length cut to the bound**, reads no more than the bound, and lets the walkers tell whether a
string is terminated. -/
structure StrnlenIsMin (m : Bytes) (s maxlen : Nat) : Prop where
  found : ∀ l, CString.HasLength (m.buffer s) l → (strnlen m s maxlen).1 = min maxlen l
  absent : (∀ i, m.buffer s i ≠ 0) → (strnlen m s maxlen).1 = maxlen
  reads : (strnlen m s maxlen).2.length ≤ maxlen ∧ ∀ p ∈ (strnlen m s maxlen).2, p ∈ byteSpan s maxlen
  check : ∀ stop < 2 ^ 32, s < stop → stop - s = maxlen → (RunsOver m s stop ↔ ∀ a, s ≤ a → a < stop → m a ≠ 0)

theorem strnlen_reads (m : Bytes) (s maxlen : Nat) :
    (strnlen m s maxlen).2.length ≤ maxlen ∧ ∀ p ∈ (strnlen m s maxlen).2, p ∈ byteSpan s maxlen := by
  have hlength : ∀ n, (byteSpan s n).length = n := fun n => by rw [byteSpan, List.length_map, List.length_range]
  rcases strnlen_cases m s maxlen with ⟨-, hrun⟩ | ⟨l, hl, -, hrun⟩
  · rw [hrun]
    exact ⟨Nat.le_of_eq (hlength maxlen), fun p hp => hp⟩
  · rw [hrun]
    refine ⟨by rw [hlength]; exact hl, fun p hp => ?_⟩
    obtain ⟨j, hj, rfl⟩ := mem_byteSpan.1 hp
    exact mem_byteSpan.2 ⟨j, by omega, rfl⟩

theorem strnlen_ne_of_none (h : ∀ j < maxlen, m.buffer s j ≠ 0) :
    (strnlen m s maxlen).1 ≠ maxlen := by
  rw [strnlen_of_none h]
  unfold sub32
  omega

/-- **`strnlen` stays below its bound**, with or without a `NUL`. -/
theorem strnlen_lt (hpos : 0 < maxlen) (hmax : maxlen < 2 ^ 32) : (strnlen m s maxlen).1 < maxlen := by
  rcases strnlen_cases m s maxlen with ⟨-, hrun⟩ | ⟨l, hl, -, hrun⟩
  · rw [hrun]
    unfold sub32
    omega
  · rw [hrun]
    exact hl

/-- The next string of a list begins behind this one and in the list, whether or not this one ends there. -/
theorem strnlen_next {stop : Nat} (hstop : stop < 2 ^ 32) (hs : s < stop) :
    s < wrap32 (s + wrap32 ((strnlen m s (sub32 stop s)).1 + 1)) ∧
      wrap32 (s + wrap32 ((strnlen m s (sub32 stop s)).1 + 1)) ≤ stop := by
  rw [sub32_of_le (Nat.le_of_lt hs) hstop]
  have hlt : (strnlen m s (stop - s)).1 < stop - s := strnlen_lt (by omega) (by omega)
  have hlength : wrap32 ((strnlen m s (stop - s)).1 + 1) = (strnlen m s (stop - s)).1 + 1 := wrap32_of_lt (by omega)
  rw [hlength, wrap32_of_lt (by omega)]
  omega

/-- So the check never fires. -/
theorem not_runsOver {stop : Nat} (hstop : stop < 2 ^ 32) (hs : s < stop) : ¬ RunsOver m s stop :=
  Nat.not_lt.2 (strnlen_next hstop hs).2

theorem strnlenIsMin_of_nul {l : Nat} (hlt : l < maxlen) (hl : CString.HasLength (m.buffer s) l)
    (hrun : strnlen m s maxlen = (l, byteSpan s (l + 1))) : StrnlenIsMin m s maxlen := by
  refine ⟨fun l' hl' => ?_, fun hnone => absurd hl.1 (hnone l), strnlen_reads m s maxlen,
    fun stop hstop hs hsize => ?_⟩
  · obtain rfl : l = l' := Nat.le_antisymm (hl.2 hl'.1) (hl'.2 hl.1)
    rw [hrun, Nat.min_eq_right (Nat.le_of_lt hlt)]
  · refine iff_of_false (not_runsOver hstop hs) fun hnone => ?_
    have hnul : m (wrap32 (s + l)) = 0 := hl.1
    rw [wrap32_of_lt (by omega)] at hnul
    exact hnone (s + l) (by omega) (by omega) hnul

end

/-- **`strnlen` is right exactly when there is a `NUL` within the bound.** -/
theorem strnlen_isMin_iff (m : Bytes) (s maxlen : Nat) :
    StrnlenIsMin m s maxlen ↔ ∃ i < maxlen, m.buffer s i = 0 := by
  constructor
  · intro h
    by_contra hnone
    have habsent : ∀ j < maxlen, m.buffer s j ≠ 0 := fun j hj h0 => hnone ⟨j, hj, h0⟩
    have hne := strnlen_ne_of_none habsent
    by_cases hex : ∃ i, m.buffer s i = 0
    · have hleast := Nat.isLeast_find hex
      have hge : maxlen ≤ Nat.find hex := Nat.not_lt.1 fun hlt => habsent _ hlt hleast.1
      rw [h.found _ hleast, Nat.min_eq_left hge] at hne
      exact hne rfl
    · exact hne (h.absent fun i h0 => hex ⟨i, h0⟩)
  · rintro ⟨i, hi, h0⟩
    rcases strnlen_cases m s maxlen with ⟨hnone, -⟩ | ⟨l, hl, hlength, hrun⟩
    · exact absurd h0 (hnone i hi)
    · exact strnlenIsMin_of_nul hl hlength hrun

/-- Two characters without a `NUL` in the bound: the string is taken for one character shorter, and passes the check
for its terminator. -/
theorem strnlen_one_short :
    (strnlen slashAtEnd 0x1000 2).1 = 1 ∧ (strnlen slashAtEnd 0x1000 0).1 = 2 ^ 32 - 1 ∧
      ¬ RunsOver slashAtEnd 0x1000 0x1002 ∧ (∀ a, 0x1000 ≤ a → a < 0x1002 → slashAtEnd a ≠ 0) ∧
      ¬ StrnlenIsMin slashAtEnd 0x1000 2 ∧ ¬ StrnlenIsMin slashAtEnd 0x1000 0 := by
  have htwo : (strnlen slashAtEnd 0x1000 2).1 = 1 := by decide
  have hzero : (strnlen slashAtEnd 0x1000 0).1 = 2 ^ 32 - 1 := by decide
  refine ⟨htwo, hzero, not_runsOver (by decide) (by decide), fun a h1 h2 => ?_, fun h => ?_, fun h => ?_⟩
  · obtain rfl | rfl : a = 0x1000 ∨ a = 0x1001 := by omega
    · decide
    · decide
  · have hmin := h.found 2 slashAtEnd_hasLength
    rw [htwo] at hmin
    exact absurd hmin (by decide)
  · have hmin := h.found 2 slashAtEnd_hasLength
    rw [hzero] at hmin
    exact absurd hmin (by decide)

end RiscvOs

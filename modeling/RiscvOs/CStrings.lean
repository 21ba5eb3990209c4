import RiscvOs.Crt0
import RiscvOs.Loops
/-!
# Strings in the C runtime (`boot/crt0.c`)

A pointer that is only read and moved on stands for the characters from it on, so the two comparisons take streams of
characters.  `char` is unsigned on RISC-V.
-/
namespace RiscvOs

open FirstDifference (Agree First)
open Loops (Returns Diverges)

/-- What a `const char*` that is read and advanced leads to. -/
abbrev CString := Nat → BitVec 8

namespace CString

def next (s : CString) : CString := fun i => s (i + 1)

/-- `*s1 - *s2`. -/
def diff (s1 s2 : CString) : Int := ((s1 0).toNat : Int) - (s2 0).toNat

/-- The string cut to its first `n` characters. -/
def cut (s : CString) (n : Nat) : CString := fun i => if i < n then s i else 0

/-- The string ends at its first `NUL`. -/
def HasLength (s : CString) (l : Nat) : Prop := IsLeast {i | s i = 0} l

end CString

/-- A round of the loop of `strcmp`. -/
def strcmpRound (s : CString × CString) : (CString × CString) ⊕ Int :=
  if s.1 0 ≠ 0 ∧ s.1 0 = s.2 0 then .inl (s.1.next, s.2.next) else .inr (s.1.diff s.2)

/-- The loop of `strncmp` with `n` rounds to go; no round moves the two pointers. -/
def strncmpFrom (s1 s2 : CString) : (n : Nat) → Int
  | 0     => 0
  | n + 1 =>
    let diff := s1.diff s2
    if diff ≠ 0 then diff
    else if s1 0 = 0 ∨ s2 0 = 0 then 0
    else strncmpFrom s1 s2 n

/-- `strncmp`; the bound is copied into an `int`. -/
def strncmp (s1 s2 : CString) (sz : Nat) : Int := strncmpFrom s1 s2 (toInt32 sz).toNat

/-! ## `strcmp` -/

section

variable {a b : CString}

theorem CString.diff_eq_zero_iff : a.diff b = 0 ↔ a 0 = b 0 := by
  unfold CString.diff
  rw [BitVec.toNat_eq]
  omega

/-- **`strcmp` ends at the first character that is `NUL` or differs**, with the difference there. -/
theorem strcmp_returns : ∀ {i : Nat} {a b : CString}, IsLeast {i | a i = 0 ∨ a i ≠ b i} i →
    Returns strcmpRound (a, b) ((a i).toNat - (b i).toNat : Int)
  | 0, a, b, h => by
    have hstop : ¬ (a 0 ≠ 0 ∧ a 0 = b 0) := by
      rintro ⟨hne, heq⟩
      cases h.1 with
      | inl h0 => exact hne h0
      | inr h0 => exact h0 heq
    apply Loops.returns_of_inr
    rw [strcmpRound, if_neg hstop]
    rfl
  | i + 1, a, b, h => by
    have hgo : a 0 ≠ 0 ∧ a 0 = b 0 := by
      by_contra hstop
      have hle := h.2 (show 0 ∈ {i | a i = 0 ∨ a i ≠ b i} by
        rw [not_and_or, not_not] at hstop
        exact hstop)
      exact absurd hle (by omega)
    have hnext : IsLeast {i | a.next i = 0 ∨ a.next i ≠ b.next i} i :=
      ⟨h.1, fun j hj => Nat.le_of_succ_le_succ (h.2 (show j + 1 ∈ {i | a i = 0 ∨ a i ≠ b i} from hj))⟩
    have hrest : Returns strcmpRound (a.next, b.next) ((a (i + 1)).toNat - (b (i + 1)).toNat : Int) :=
      strcmp_returns hnext
    apply Loops.returns_of_inl _ hrest
    rw [strcmpRound, if_pos hgo]

/-- The cut strings part where the strings do, or at the end of the cut. -/
theorem exists_stop (a b : CString) (n : Nat) : ∃ i, IsLeast {i | a.cut n i = 0 ∨ a.cut n i ≠ b.cut n i} i := by
  classical
  have hend : ∃ i, a.cut n i = 0 ∨ a.cut n i ≠ b.cut n i := ⟨n, Or.inl (if_neg (Nat.lt_irrefl n))⟩
  exact ⟨_, Nat.isLeast_find hend⟩

theorem strncmp_eq {n : Nat} (hn : n < 2 ^ 32) :
    strncmp a b n = if 0 < n ∧ n < 2 ^ 31 then a.diff b else 0 := by
  have hone : ∀ k, strncmpFrom a b (k + 1) = a.diff b := by
    intro k
    induction k with
    | zero =>
      rw [strncmpFrom, strncmpFrom]
      by_cases h : a.diff b = 0
      · simp [h]
      · simp [h]
    | succ k ih =>
      rw [strncmpFrom, ih]
      by_cases h : a.diff b = 0
      · simp [h]
      · simp [h]
  unfold strncmp
  by_cases hpos : 0 < n ∧ n < 2 ^ 31
  · obtain ⟨k, rfl⟩ : ∃ k, n = k + 1 := ⟨n - 1, by omega⟩
    rw [if_pos hpos, toInt32_of_lt hpos.2, Int.toNat_natCast, hone]
  · have hzero : (toInt32 n).toNat = 0 := by
      unfold toInt32
      split <;> omega
    rw [if_neg hpos, hzero, strncmpFrom]

end

/-! ## `strncmp` -/

/-- **`strncmp` compares the cut strings**: its sign is that of `strcmp` on them. -/
structure LikeStrcmp (a b : CString) (n l : Nat) : Prop where
  sign : ∃ r, Returns strcmpRound (a.cut n, b.cut n) r ∧ (strncmp a b n).sign = r.sign
  zero_iff : strncmp a b n = 0 ↔ Agree a b (min n (l + 1))

section

variable {a b : CString} {n l i : Nat}

theorem CString.cut_of_lt (s : CString) {i : Nat} (h : i < n) : s.cut n i = s i := if_pos h

theorem CString.cut_of_ge (s : CString) {i : Nat} (h : n ≤ i) : s.cut n i = 0 := if_neg (Nat.not_lt.2 h)

/-- The cut strings are equal where they stop exactly when the strings agree that far. -/
theorem stop_eq_iff (ha : a.HasLength l) (h : IsLeast {i | a.cut n i = 0 ∨ a.cut n i ≠ b.cut n i} i) :
    a.cut n i = b.cut n i ↔ Agree a b (min n (l + 1)) := by
  have hbefore : ∀ j < i, a.cut n j ≠ 0 ∧ a.cut n j = b.cut n j := by
    intro j hj
    by_contra hstop
    rw [not_and_or, not_not] at hstop
    exact absurd (h.2 hstop) (Nat.not_le.2 hj)
  have hlt : ∀ j < i, j < n := fun j hj => Nat.not_le.1 fun hge => (hbefore j hj).1 (a.cut_of_ge hge)
  constructor
  · intro heq j hj
    rw [Nat.lt_min] at hj
    by_cases hji : j < i
    · rw [← a.cut_of_lt hj.1, ← b.cut_of_lt hj.1]
      exact (hbefore j hji).2
    · -- the end of the first string is the stop
      have hin : i < n := Nat.lt_of_le_of_lt (Nat.not_lt.1 hji) hj.1
      have hend : a i = 0 := by
        rw [← a.cut_of_lt hin]
        exact h.1.resolve_right (not_not.2 heq)
      have hli : l ≤ i := ha.2 hend
      obtain rfl : j = i := by omega
      rw [← a.cut_of_lt hin, ← b.cut_of_lt hin]
      exact heq
  · intro hagree
    by_cases hin : i < n
    · have hil : i ≤ l := by
        by_contra hli
        have hl := hbefore l (Nat.not_le.1 hli)
        rw [a.cut_of_lt (hlt l (Nat.not_le.1 hli))] at hl
        exact hl.1 ha.1
      rw [a.cut_of_lt hin, b.cut_of_lt hin]
      exact hagree i (lt_min hin (Nat.lt_succ_of_le hil))
    · rw [a.cut_of_ge (Nat.not_lt.1 hin), b.cut_of_ge (Nat.not_lt.1 hin)]

theorem likeStrcmp_of_agree (ha : a.HasLength l) (hn : n < 2 ^ 32) (h : Agree a b (min n (l + 1))) :
    LikeStrcmp a b n l := by
  obtain ⟨i, hi⟩ := exists_stop a b n
  have hzero : strncmp a b n = 0 := by
    rw [strncmp_eq hn]
    split
    case isTrue hpos =>
      rw [CString.diff_eq_zero_iff]
      exact h 0 (lt_min hpos.1 (Nat.succ_pos l))
    case isFalse => rfl
  refine ⟨⟨_, strcmp_returns hi, ?_⟩, iff_of_true hzero h⟩
  rw [hzero, (stop_eq_iff ha hi).2 h, Int.sub_self]

theorem likeStrcmp_of_first_ne (hpos : 0 < n) (hn : n < 2 ^ 31) (hne : a 0 ≠ b 0) : LikeStrcmp a b n l := by
  have hcut : a.cut n 0 ≠ b.cut n 0 := by rwa [a.cut_of_lt hpos, b.cut_of_lt hpos]
  have hstop : IsLeast {i | a.cut n i = 0 ∨ a.cut n i ≠ b.cut n i} 0 := ⟨Or.inr hcut, fun j _ => Nat.zero_le j⟩
  have hval : strncmp a b n = a.diff b := by rw [strncmp_eq (by omega), if_pos ⟨hpos, hn⟩]
  refine ⟨⟨_, strcmp_returns hstop, ?_⟩, ?_⟩
  · rw [hval, a.cut_of_lt hpos, b.cut_of_lt hpos]
    rfl
  · rw [hval, CString.diff_eq_zero_iff]
    exact iff_of_false hne fun hagree => hne (hagree 0 (lt_min hpos (Nat.succ_pos l)))

end

/-- **`strncmp` agrees with `strcmp` on the cut strings exactly when the cut strings are equal, or differ in their
first character** and the bound is an `int`. -/
theorem strncmp_like_strcmp_iff (a b : CString) (n l : Nat) (ha : a.HasLength l) (hn : n < 2 ^ 32) :
    LikeStrcmp a b n l ↔ Agree a b (min n (l + 1)) ∨ n < 2 ^ 31 ∧ a 0 ≠ b 0 := by
  constructor
  · intro h
    by_contra hout
    rw [not_or] at hout
    have hne : strncmp a b n ≠ 0 := fun hzero => hout.1 (h.zero_iff.1 hzero)
    rw [strncmp_eq hn] at hne
    split at hne
    case isTrue hpos =>
      rw [Ne, CString.diff_eq_zero_iff] at hne
      exact hout.2 ⟨hpos.2, hne⟩
    case isFalse => exact hne rfl
  · rintro (h | ⟨hlt, hne⟩)
    · exact likeStrcmp_of_agree ha hn h
    · cases Nat.eq_zero_or_pos n with
      | inl h0 =>
        refine likeStrcmp_of_agree ha hn fun i hi => ?_
        rw [h0, Nat.zero_min] at hi
        exact absurd hi (Nat.not_lt_zero i)
      | inr hpos => exact likeStrcmp_of_first_ne hpos hlt hne

/-- A string of these characters. -/
def CString.ofChars (l : List (BitVec 8)) : CString := fun i => l.getD i 0

theorem CString.ofChars_hasLength {l : List (BitVec 8)} (h : ∀ c ∈ l, c ≠ 0) : (ofChars l).HasLength l.length := by
  refine ⟨show l.getD l.length 0 = 0 by simp, fun i hi => ?_⟩
  by_contra hlt
  rw [Nat.not_le] at hlt
  have hget : l.getD i 0 = l[i] := by simp [hlt]
  exact h l[i] (List.getElem_mem hlt) (hget.symm.trans hi)

def stringAb : CString := .ofChars [0x61, 0x62]

def stringAc : CString := .ofChars [0x61, 0x63]

theorem stringAb_hasLength : stringAb.HasLength 2 := CString.ofChars_hasLength (by decide)

theorem stringAc_hasLength : stringAc.HasLength 2 := CString.ofChars_hasLength (by decide)

theorem strncmp_like_strcmp_iff_stringAb :
    LikeStrcmp stringAb stringAc 2 2 ↔ Agree stringAb stringAc (min 2 (2 + 1)) ∨ 2 < 2 ^ 31 ∧ stringAb 0 ≠ stringAc 0 :=
  strncmp_like_strcmp_iff stringAb stringAc 2 2 stringAb_hasLength (by decide)

/-- A difference after the first character is not seen, and none at all with a bound of `2 ^ 31`. -/
theorem strncmp_misses_difference :
    stringAb.HasLength 2 ∧ stringAc.HasLength 2 ∧
      strncmp stringAb stringAc 2 = 0 ∧ Returns strcmpRound (stringAb.cut 2, stringAc.cut 2) (-1) ∧
      ¬ LikeStrcmp stringAb stringAc 2 2 ∧
      strncmp stringAb stringAc.next (2 ^ 31) = 0 ∧ ¬ LikeStrcmp stringAb stringAc.next (2 ^ 31) 2 := by
  refine ⟨stringAb_hasLength, stringAc_hasLength, by decide, ⟨2, by rfl⟩, fun h => ?_, by decide, fun h => ?_⟩
  · have hagree := h.zero_iff.1 (by decide)
    exact absurd (hagree 1 (by decide)) (by decide)
  · have hagree := h.zero_iff.1 (by decide)
    exact absurd (hagree 0 (by decide)) (by decide)

/-! ## `strrchr` -/

/-- A round of the loop of `strrchr`, which never moves the pointer; `none` is `NULL`. -/
def strrchrRound (m : Bytes) (ch : Int) (str : Nat) : Nat ⊕ Option Nat :=
  if m str ≠ 0 then
    if ((m str).toNat : Int) = ch then .inr (some str) else .inl str
  else .inr none

/-- **`strrchr` finds the last occurrence** of the character in a string of length `l`, its `NUL` included. -/
def FindsLast (m : Bytes) (s : Nat) (ch : Int) (l : Nat) : Prop :=
  ∃ r, Returns (strrchrRound m ch) s r ∧
    (∀ i, IsGreatest {i | i ≤ l ∧ m.buffer s i = BitVec.ofInt 8 ch} i → r = some (wrap32 (s + i))) ∧
    ((∀ i ≤ l, m.buffer s i ≠ BitVec.ofInt 8 ch) → r = none)

section

variable {m : Bytes} {s : Nat} {ch : Int} {l : Nat}

theorem strrchr_diverges (h0 : m s ≠ 0) (hch : ((m s).toNat : Int) ≠ ch) : Diverges (strrchrRound m ch) s := by
  refine Loops.diverges_of_invariant (I := fun str => str = s) (fun str hstr => ⟨str, ?_, hstr⟩) rfl
  rw [hstr, strrchrRound, if_pos h0, if_neg hch]

theorem strrchr_of_empty (h0 : m s = 0) : Returns (strrchrRound m ch) s none := by
  apply Loops.returns_of_inr
  rw [strrchrRound, if_neg (not_not.2 h0)]

theorem strrchr_of_first (h0 : m s ≠ 0) (hch : ((m s).toNat : Int) = ch) :
    Returns (strrchrRound m ch) s (some s) := by
  apply Loops.returns_of_inr
  rw [strrchrRound, if_pos h0, if_pos hch]

theorem ofInt_toNat (x : BitVec 8) : BitVec.ofInt 8 (x.toNat : Int) = x := by
  rw [BitVec.ofInt_natCast, BitVec.ofNat_toNat, BitVec.setWidth_eq]

/-- A string does not go round the address space. -/
theorem length_lt (h : CString.HasLength (m.buffer s) l) : l < 2 ^ 32 := by
  have hwrapped : m.buffer s (l % 2 ^ 32) = 0 := by
    have hl : m.buffer s l = 0 := h.1
    unfold Bytes.buffer wrap32 at *
    rwa [Nat.add_mod_mod]
  have hle : l ≤ l % 2 ^ 32 := h.2 hwrapped
  have hlt : l % 2 ^ 32 < 2 ^ 32 := Nat.mod_lt _ (by decide)
  omega

theorem exists_last {P : Nat → Prop} {i : Nat} (hi : i ≤ l) (h : P i) :
    ∃ g, IsGreatest {i | i ≤ l ∧ P i} g ∧ i ≤ g := by
  classical
  exact ⟨Nat.findGreatest P l, ⟨⟨Nat.findGreatest_le l, Nat.findGreatest_spec hi h⟩,
    fun j hj => Nat.le_findGreatest hj.1 hj.2⟩, Nat.le_findGreatest hi h⟩

theorem findsLast_of_empty (hs : s < 2 ^ 32) (hl : CString.HasLength (m.buffer s) l) (h0 : m s = 0) :
    FindsLast m s ch l ↔ BitVec.ofInt 8 ch ≠ 0 := by
  have hbuffer : m.buffer s 0 = 0 := by rw [buffer_zero m hs, h0]
  obtain rfl : l = 0 := Nat.le_zero.1 (hl.2 hbuffer)
  constructor
  · rintro ⟨r, hr, hlast, -⟩ hzero
    obtain rfl := hr.unique (strrchr_of_empty h0)
    have hfound := hlast 0 ⟨⟨Nat.le_refl 0, hbuffer.trans hzero.symm⟩, fun i hi => hi.1⟩
    cases hfound
  · intro hne
    refine ⟨none, strrchr_of_empty h0, fun i hi => ?_, fun _ => rfl⟩
    obtain rfl : i = 0 := Nat.le_zero.1 hi.1.1
    exact absurd (hi.1.2.symm.trans hbuffer) hne

theorem findsLast_of_first (hs : s < 2 ^ 32) (hl : CString.HasLength (m.buffer s) l) (h0 : m s ≠ 0)
    (hch : ((m s).toNat : Int) = ch) : FindsLast m s ch l ↔ ∀ i ≤ l, 0 < i → m.buffer s i ≠ m s := by
  have hbyte : BitVec.ofInt 8 ch = m s := by rw [← hch, ofInt_toNat]
  have hbuffer : m.buffer s 0 = m s := buffer_zero m hs
  have hlt := length_lt hl
  unfold FindsLast
  rw [hbyte]
  constructor
  · rintro ⟨r, hr, hlast, -⟩ i hi hpos heq
    obtain rfl := hr.unique (strrchr_of_first h0 hch)
    obtain ⟨g, hg, hig⟩ := exists_last (P := fun i => m.buffer s i = m s) hi heq
    have hsame : s = wrap32 (s + g) := Option.some.inj (hlast g hg)
    have hgl : g ≤ l := hg.1.1
    unfold wrap32 at hsame
    omega
  · intro hnone
    refine ⟨some s, strrchr_of_first h0 hch, fun i hi => ?_, fun h => absurd hbuffer (h 0 (Nat.zero_le l))⟩
    obtain rfl : i = 0 := by
      by_contra hne
      exact hnone i hi.1.1 (Nat.pos_of_ne_zero hne) hi.1.2
    rw [Nat.add_zero, wrap32_of_lt hs]

end

/-- **`strrchr` is right exactly when the first character decides**: there is none and another one than `NUL` is looked
for, or it is the last occurrence.  Otherwise the loop does not end, or `NUL` is not found in the empty string. -/
theorem strrchr_finds_iff (m : Bytes) (s : Nat) (ch : Int) (l : Nat) (hs : s < 2 ^ 32)
    (hl : CString.HasLength (m.buffer s) l) :
    FindsLast m s ch l ↔
      m s = 0 ∧ BitVec.ofInt 8 ch ≠ 0 ∨
        m s ≠ 0 ∧ ((m s).toNat : Int) = ch ∧ ∀ i ≤ l, 0 < i → m.buffer s i ≠ m s := by
  by_cases h0 : m s = 0
  · rw [findsLast_of_empty hs hl h0]
    exact ⟨fun h => Or.inl ⟨h0, h⟩, fun h => (h.resolve_right fun h => h.1 h0).2⟩
  · by_cases hch : ((m s).toNat : Int) = ch
    · rw [findsLast_of_first hs hl h0 hch]
      exact ⟨fun h => Or.inr ⟨h0, hch, h⟩, fun h => (h.resolve_left fun h => h0 h.1).2.2⟩
    · refine iff_of_false ?_ ?_
      · rintro ⟨r, hr, -⟩
        exact (strrchr_diverges h0 hch).not_returns hr
      · rintro (h | h)
        · exact h0 h.1
        · exact hch h.2.1

/-- The two characters `a/` at `0x1000`, and nothing but `NUL` elsewhere. -/
def slashAtEnd : Bytes := fun a => if a = 0x1000 then 0x61 else if a = 0x1001 then 0x2f else 0

theorem slashAtEnd_hasLength : CString.HasLength (slashAtEnd.buffer 0x1000) 2 := by
  have hchars : ∀ i < 2, slashAtEnd.buffer 0x1000 i ≠ 0 := by decide
  exact ⟨rfl, fun i hi => Nat.not_lt.1 fun hlt => hchars i hlt hi⟩

theorem strrchr_finds_iff_slashAtEnd :
    FindsLast slashAtEnd 0x1000 0x61 2 ↔
      slashAtEnd 0x1000 = 0 ∧ BitVec.ofInt 8 0x61 ≠ 0 ∨
        slashAtEnd 0x1000 ≠ 0 ∧ ((slashAtEnd 0x1000).toNat : Int) = 0x61 ∧
          ∀ i ≤ 2, 0 < i → slashAtEnd.buffer 0x1000 i ≠ slashAtEnd 0x1000 :=
  strrchr_finds_iff slashAtEnd 0x1000 0x61 2 (by decide) slashAtEnd_hasLength

/-- Looking for the `/` at the end of `a/` never ends. -/
theorem strrchr_hangs :
    CString.HasLength (slashAtEnd.buffer 0x1000) 2 ∧ slashAtEnd.buffer 0x1000 1 = 0x2f ∧
      Diverges (strrchrRound slashAtEnd 0x2f) 0x1000 ∧ ¬ FindsLast slashAtEnd 0x1000 0x2f 2 := by
  have hdiverges : Diverges (strrchrRound slashAtEnd 0x2f) 0x1000 := strrchr_diverges (by decide) (by decide)
  refine ⟨slashAtEnd_hasLength, by decide, hdiverges, ?_⟩
  rintro ⟨r, hr, -⟩
  exact hdiverges.not_returns hr

end RiscvOs

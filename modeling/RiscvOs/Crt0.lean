import RiscvOs.Basic
import RiscvOs.FirstDifference
/-!
# The C runtime's functions on bytes (`boot/crt0.c`)

`memcmp` finds the first difference of two buffers and returns the difference of its two pointers there, not that of
the bytes.
-/
namespace RiscvOs

open FirstDifference (Agree First)

/-- A byte at each address. -/
abbrev Bytes := Nat → BitVec 8

/-- Byte `i` of the buffer at `s`. -/
def Bytes.buffer (m : Bytes) (s i : Nat) : BitVec 8 := m (wrap32 (s + i))

def memcmp (m : Bytes) : (p1 p2 n : Nat) → Int
  | _, _, 0       => 0
  | p1, p2, n + 1 =>
    -- both pointers have moved on when the bytes are compared
    if m p1 ≠ m p2 then toInt32 (sub32 (wrap32 (p1 + 1)) (wrap32 (p2 + 1)))
    else memcmp m (wrap32 (p1 + 1)) (wrap32 (p2 + 1)) n

/-! ## The first difference -/

section

variable (m : Bytes)

theorem buffer_zero {s : Nat} (hs : s < 2 ^ 32) : m.buffer s 0 = m s := by
  unfold Bytes.buffer
  rw [Nat.add_zero, wrap32_of_lt hs]

theorem buffer_next (s : Nat) : m.buffer (wrap32 (s + 1)) = fun i => m.buffer s (i + 1) := by
  funext i
  unfold Bytes.buffer wrap32
  rw [Nat.mod_add_mod, Nat.add_assoc, Nat.add_comm 1 i]

theorem sub32_next (a b : Nat) : sub32 (wrap32 (a + 1)) (wrap32 (b + 1)) = sub32 a b := by
  unfold sub32 wrap32
  omega

theorem memcmp_of_agree : ∀ {n s1 s2 : Nat}, s1 < 2 ^ 32 → s2 < 2 ^ 32 →
    Agree (m.buffer s1) (m.buffer s2) n → memcmp m s1 s2 n = 0
  | 0, _, _, _, _, _ => rfl
  | n + 1, s1, s2, h1, h2, h => by
    obtain ⟨h0, hrest⟩ := FirstDifference.agree_succ_iff.1 h
    rw [buffer_zero m h1, buffer_zero m h2] at h0
    rw [← buffer_next, ← buffer_next] at hrest
    rw [memcmp, if_neg (not_not.2 h0)]
    exact memcmp_of_agree (wrap32_lt _) (wrap32_lt _) hrest

/-- **What `memcmp` returns at the first difference**: the distance of the buffers. -/
theorem memcmp_of_first : ∀ {n s1 s2 i : Nat}, s1 < 2 ^ 32 → s2 < 2 ^ 32 → i < n →
    First (m.buffer s1) (m.buffer s2) i → memcmp m s1 s2 n = toInt32 (sub32 s1 s2)
  | n + 1, s1, s2, 0, h1, h2, _, h => by
    have h0 := h.ne
    rw [buffer_zero m h1, buffer_zero m h2] at h0
    rw [memcmp, if_pos h0, sub32_next]
  | n + 1, s1, s2, i + 1, h1, h2, hi, h => by
    have h0 := h.agree 0 (Nat.succ_pos i)
    have hrest := (FirstDifference.first_succ_iff h0).1 h
    rw [buffer_zero m h1, buffer_zero m h2] at h0
    rw [← buffer_next, ← buffer_next] at hrest
    rw [memcmp, if_neg (not_not.2 h0),
      memcmp_of_first (wrap32_lt _) (wrap32_lt _) (Nat.lt_of_succ_lt_succ hi) hrest, sub32_next]

theorem ne_of_first {s1 s2 i : Nat} (h : First (m.buffer s1) (m.buffer s2) i) : s1 ≠ s2 := by
  rintro rfl
  exact h.ne rfl

theorem toInt32_eq_zero_iff {x : Nat} (h : x < 2 ^ 32) : toInt32 x = 0 ↔ x = 0 := by
  unfold toInt32
  split <;> omega

theorem sub32_lt (a b : Nat) : sub32 a b < 2 ^ 32 := Nat.mod_lt _ (by decide)

theorem sub32_eq_zero_iff {a b : Nat} (ha : a < 2 ^ 32) (hb : b < 2 ^ 32) : sub32 a b = 0 ↔ a = b := by
  unfold sub32
  omega

/-- **For equality `memcmp` is right**, wherever the buffers are. -/
theorem memcmp_eq_zero_iff {s1 s2 : Nat} (h1 : s1 < 2 ^ 32) (h2 : s2 < 2 ^ 32) (n : Nat) :
    memcmp m s1 s2 n = 0 ↔ Agree (m.buffer s1) (m.buffer s2) n := by
  constructor
  · intro h
    rcases FirstDifference.agree_or_first (m.buffer s1) (m.buffer s2) n with hagree | ⟨i, hi, hfirst⟩
    · exact hagree
    · rw [memcmp_of_first m h1 h2 hi hfirst, toInt32_eq_zero_iff (sub32_lt _ _), sub32_eq_zero_iff h1 h2] at h
      exact absurd h (ne_of_first m hfirst)
  · exact memcmp_of_agree m h1 h2

end

/-! ## The sign -/

/-- **`memcmp` compares bytes**: the sign is that of the first two that differ, and turns with the buffers. -/
structure Compares (m : Bytes) (s1 s2 n : Nat) : Prop where
  zero_iff : memcmp m s1 s2 n = 0 ↔ Agree (m.buffer s1) (m.buffer s2) n
  sign : ∀ i < n, First (m.buffer s1) (m.buffer s2) i →
    (memcmp m s1 s2 n).sign = (((m.buffer s1 i).toNat : Int) - (m.buffer s2 i).toNat).sign
  swap : (memcmp m s2 s1 n).sign = - (memcmp m s1 s2 n).sign

theorem toInt32_sign_of_lt {x : Nat} (hpos : 0 < x) (h : x < 2 ^ 31) : (toInt32 x).sign = 1 := by
  rw [toInt32_of_lt h]
  exact Int.sign_eq_one_of_pos (Int.natCast_pos.2 hpos)

theorem toInt32_sign_of_ge {x : Nat} (hlt : x < 2 ^ 32) (h : 2 ^ 31 ≤ x) : (toInt32 x).sign = -1 := by
  apply Int.sign_eq_neg_one_of_neg
  unfold toInt32
  split <;> omega

/-- Two different addresses, one less than `2 ^ 31` bytes below the other. -/
theorem sub32_sign {a b : Nat} (ha : a < 2 ^ 32) (hb : b < 2 ^ 32) (hne : a ≠ b) (h : sub32 b a < 2 ^ 31) :
    (toInt32 (sub32 a b)).sign = -1 ∧ (toInt32 (sub32 b a)).sign = 1 := by
  have hpos : 0 < sub32 b a := Nat.pos_of_ne_zero fun h0 => hne ((sub32_eq_zero_iff hb ha).1 h0).symm
  have hge : 2 ^ 31 ≤ sub32 a b := by
    unfold sub32 at *
    omega
  exact ⟨toInt32_sign_of_ge (sub32_lt _ _) hge, toInt32_sign_of_lt hpos h⟩

/-- The signs of the two distances are opposite only if one of them is less than `2 ^ 31`. -/
theorem sub32_lt_of_sign {a b : Nat} (h : (toInt32 (sub32 b a)).sign = 1) : sub32 b a < 2 ^ 31 := by
  by_contra hge
  rw [toInt32_sign_of_ge (sub32_lt _ _) (Nat.not_lt.1 hge)] at h
  exact absurd h (by decide)

namespace Compares

variable {m : Bytes} {s1 s2 n : Nat}

theorem symm (h : Compares m s1 s2 n) : Compares m s2 s1 n where
  zero_iff := by
    have hswap : memcmp m s2 s1 n = 0 ↔ memcmp m s1 s2 n = 0 := by
      rw [← Int.sign_eq_zero_iff_zero, h.swap, Int.neg_eq_zero, Int.sign_eq_zero_iff_zero]
    rw [hswap, h.zero_iff]
    exact ⟨Agree.symm, Agree.symm⟩
  sign i hi hfirst := by
    rw [h.swap, h.sign i hi hfirst.symm, ← Int.sign_neg, Int.neg_sub]
  swap := by rw [h.swap, Int.neg_neg]

end Compares

/-- The smaller of the two bytes lies less than `2 ^ 31` bytes below the other, going round the address space. -/
def SmallerBelow (m : Bytes) (s1 s2 i : Nat) : Prop :=
  (m.buffer s1 i < m.buffer s2 i → sub32 s2 s1 < 2 ^ 31) ∧ (m.buffer s2 i < m.buffer s1 i → sub32 s1 s2 < 2 ^ 31)

theorem sign_sub_of_lt {x y : BitVec 8} (h : x < y) :
    ((x.toNat : Int) - y.toNat).sign = -1 ∧ ((y.toNat : Int) - x.toNat).sign = 1 := by
  have hlt : x.toNat < y.toNat := h
  exact ⟨Int.sign_eq_neg_one_of_neg (by omega), Int.sign_eq_one_of_pos (by omega)⟩

theorem compares_of_agree {m : Bytes} {s1 s2 n : Nat} (h1 : s1 < 2 ^ 32) (h2 : s2 < 2 ^ 32)
    (h : Agree (m.buffer s1) (m.buffer s2) n) : Compares m s1 s2 n where
  zero_iff := memcmp_eq_zero_iff m h1 h2 n
  sign i hi hfirst := absurd h (hfirst.not_agree hi)
  swap := by
    rw [memcmp_of_agree m h1 h2 h, memcmp_of_agree m h2 h1 h.symm]
    rfl

/-- With the smaller byte's buffer below the other one both orders of the arguments come out right. -/
theorem compares_of_first_lt {m : Bytes} {s1 s2 n i : Nat} (h1 : s1 < 2 ^ 32) (h2 : s2 < 2 ^ 32) (hi : i < n)
    (hfirst : First (m.buffer s1) (m.buffer s2) i) (hlt : m.buffer s1 i < m.buffer s2 i)
    (hbelow : sub32 s2 s1 < 2 ^ 31) : Compares m s1 s2 n := by
  have hsign := sub32_sign h1 h2 (ne_of_first m hfirst) hbelow
  refine ⟨memcmp_eq_zero_iff m h1 h2 n, fun j _ hj => ?_, ?_⟩
  · obtain rfl := hfirst.unique hj
    rw [memcmp_of_first m h1 h2 hi hfirst, hsign.1, (sign_sub_of_lt hlt).1]
  · rw [memcmp_of_first m h1 h2 hi hfirst, memcmp_of_first m h2 h1 hi hfirst.symm, hsign.1, hsign.2]
    rfl

theorem below_of_compares {m : Bytes} {s1 s2 n i : Nat} (h1 : s1 < 2 ^ 32) (h2 : s2 < 2 ^ 32) (hi : i < n)
    (hfirst : First (m.buffer s1) (m.buffer s2) i) (hlt : m.buffer s1 i < m.buffer s2 i) (h : Compares m s1 s2 n) :
    sub32 s2 s1 < 2 ^ 31 := by
  have hsign : (memcmp m s1 s2 n).sign = -1 := (h.sign i hi hfirst).trans (sign_sub_of_lt hlt).1
  have hswap : (memcmp m s2 s1 n).sign = 1 := by
    rw [h.swap, hsign]
    rfl
  rw [memcmp_of_first m h2 h1 hi hfirst.symm] at hswap
  exact sub32_lt_of_sign hswap

/-- **`memcmp` compares bytes exactly when they agree, or the smaller of the first two that differ lies below the
other.** -/
theorem memcmp_compares_iff (m : Bytes) (s1 s2 n : Nat) (h1 : s1 < 2 ^ 32) (h2 : s2 < 2 ^ 32) :
    Compares m s1 s2 n ↔ ∀ i < n, First (m.buffer s1) (m.buffer s2) i → SmallerBelow m s1 s2 i := by
  constructor
  · intro h i hi hfirst
    exact ⟨fun hlt => below_of_compares h1 h2 hi hfirst hlt h,
      fun hlt => below_of_compares h2 h1 hi hfirst.symm hlt h.symm⟩
  · intro h
    rcases FirstDifference.agree_or_first (m.buffer s1) (m.buffer s2) n with hagree | ⟨i, hi, hfirst⟩
    · exact compares_of_agree h1 h2 hagree
    · obtain ⟨hlow, hhigh⟩ := h i hi hfirst
      have hne : (m.buffer s1 i).toNat ≠ (m.buffer s2 i).toNat := fun heq => hfirst.ne (BitVec.eq_of_toNat_eq heq)
      cases Nat.lt_or_gt_of_ne hne with
      | inl hlt => exact compares_of_first_lt h1 h2 hi hfirst hlt (hlow hlt)
      | inr hlt => exact (compares_of_first_lt h2 h1 hi hfirst.symm hlt (hhigh hlt)).symm

/-- The bytes `02` and `01`, four KiB apart. -/
def twoBytes : Bytes := fun a => if a = 0x1000 then 2 else if a = 0x2000 then 1 else 0

theorem memcmp_compares_iff_twoBytes :
    Compares twoBytes 0x1000 0x2000 1 ↔
      ∀ i < 1, First (twoBytes.buffer 0x1000) (twoBytes.buffer 0x2000) i → SmallerBelow twoBytes 0x1000 0x2000 i :=
  memcmp_compares_iff twoBytes 0x1000 0x2000 1 (by decide) (by decide)

/-- The greater byte comes first in memory: `memcmp` calls it the smaller one. -/
theorem greater_byte_compares_less :
    (memcmp twoBytes 0x1000 0x2000 1).sign = -1 ∧ twoBytes 0x2000 < twoBytes 0x1000 ∧
      ¬ Compares twoBytes 0x1000 0x2000 1 := by
  refine ⟨by decide, by decide, fun h => ?_⟩
  have hsign := h.sign 0 (by decide) (FirstDifference.first_zero (by decide))
  exact absurd hsign (by decide)

end RiscvOs

import Mathlib
/-!
# A number in two halves

A number is kept as a low half below a base and a high half.  The order is that of the high halves, and of the low
ones where these agree (`lt_join_iff`); a sum is carried by hand (`join_carry`).
-/
namespace Halves

variable (base : Nat)

def low (x : Nat) : Nat := x % base

def high (x : Nat) : Nat := x / base

def join (lo hi : Nat) : Nat := hi * base + lo

variable {base} {lo hi : Nat}

theorem low_lt (hbase : 0 < base) (x : Nat) : low base x < base := Nat.mod_lt x hbase

theorem join_low_high (x : Nat) : join base (low base x) (high base x) = x := by
  unfold join low high
  exact Nat.div_add_mod' x base

theorem low_join (h : lo < base) : low base (join base lo hi) = lo := by
  unfold join low
  rw [Nat.add_comm, Nat.add_mul_mod_self_right, Nat.mod_eq_of_lt h]

theorem join_lt {n : Nat} (hlo : lo < base) (hhi : hi < n) : join base lo hi < n * base :=
  calc hi * base + lo < hi * base + base := Nat.add_lt_add_left hlo _
    _ = (hi + 1) * base := (Nat.succ_mul hi base).symm
    _ ≤ n * base := Nat.mul_le_mul_right base hhi

theorem join_lt_join_iff {lo' hi' : Nat} (h : lo < base) (h' : lo' < base) :
    join base lo hi < join base lo' hi' ↔ hi < hi' ∨ hi = hi' ∧ lo < lo' := by
  rcases Nat.lt_trichotomy hi hi' with hlt | rfl | hgt
  · refine iff_of_true ?_ (Or.inl hlt)
    calc join base lo hi < hi' * base := join_lt h hlt
      _ ≤ join base lo' hi' := Nat.le_add_right _ _
  · unfold join
    omega
  · have hle : join base lo' hi' < join base lo hi :=
      calc join base lo' hi' < hi * base := join_lt h' hgt
        _ ≤ join base lo hi := Nat.le_add_right _ _
    omega

/-- **The order is lexicographic**, the high half first. -/
theorem lt_join_iff (x : Nat) (h : lo < base) :
    x < join base lo hi ↔ high base x < hi ∨ high base x = hi ∧ low base x < lo := by
  rw [← join_lt_join_iff (low_lt (Nat.zero_lt_of_lt h) x) h, join_low_high]

theorem carry_iff {n : Nat} (hlo : lo < base) (hn : n < base) : low base (lo + n) < lo ↔ base ≤ lo + n := by
  unfold low
  rcases Nat.lt_or_ge (lo + n) base with h | h
  · rw [Nat.mod_eq_of_lt h]
    omega
  · rw [Nat.mod_eq_sub_mod h, Nat.mod_eq_of_lt (by omega)]
    omega

/-- **Adding with the carry taken from the low half's wrap is adding.** -/
theorem join_carry {n : Nat} (hlo : lo < base) (hn : n < base) :
    join base (low base (lo + n)) (if low base (lo + n) < lo then hi + 1 else hi) = join base lo hi + n := by
  have hsum := carry_iff hlo hn
  by_cases hc : base ≤ lo + n
  · have hlow : low base (lo + n) = lo + n - base := by
      unfold low
      rw [Nat.mod_eq_sub_mod hc, Nat.mod_eq_of_lt (by omega)]
    rw [if_pos (hsum.2 hc), hlow]
    unfold join
    rw [Nat.succ_mul]
    omega
  · have hlow : low base (lo + n) = lo + n := Nat.mod_eq_of_lt (Nat.not_le.1 hc)
    rw [if_neg (fun h => hc (hsum.1 h)), hlow]
    unfold join
    omega

end Halves

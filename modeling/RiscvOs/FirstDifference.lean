import Mathlib
/-!
# Where two sequences first differ

Two sequences agree on their first `n` elements, or one place below `n` is the first they differ at (`agree_or_first`),
and there is only one such place (`First.unique`).
-/
namespace FirstDifference

variable {α : Type*} {a b : Nat → α} {n i : Nat}

def Agree (a b : Nat → α) (n : Nat) : Prop := ∀ i < n, a i = b i

structure First (a b : Nat → α) (i : Nat) : Prop where
  agree : Agree a b i
  ne : a i ≠ b i

theorem Agree.symm (h : Agree a b n) : Agree b a n := fun i hi => (h i hi).symm

theorem First.symm (h : First a b i) : First b a i := ⟨h.agree.symm, h.ne.symm⟩

theorem First.not_agree (h : First a b i) (hi : i < n) : ¬ Agree a b n := fun hagree => h.ne (hagree i hi)

theorem First.unique {j : Nat} (hi : First a b i) (hj : First a b j) : i = j := by
  rcases Nat.lt_trichotomy i j with h | h | h
  · exact absurd (hj.agree i h) hi.ne
  · exact h
  · exact absurd (hi.agree j h) hj.ne

theorem agree_succ_iff : Agree a b (n + 1) ↔ a 0 = b 0 ∧ Agree (fun i => a (i + 1)) (fun i => b (i + 1)) n := by
  constructor
  · intro h
    exact ⟨h 0 (Nat.succ_pos n), fun i hi => h (i + 1) (Nat.succ_lt_succ hi)⟩
  · rintro ⟨h0, h⟩ i hi
    cases i with
    | zero => exact h0
    | succ i => exact h i (Nat.lt_of_succ_lt_succ hi)

theorem first_succ_iff (h0 : a 0 = b 0) :
    First a b (i + 1) ↔ First (fun i => a (i + 1)) (fun i => b (i + 1)) i := by
  constructor
  · intro h
    exact ⟨(agree_succ_iff.1 h.agree).2, h.ne⟩
  · intro h
    exact ⟨agree_succ_iff.2 ⟨h0, h.agree⟩, h.ne⟩

theorem first_zero (h : a 0 ≠ b 0) : First a b 0 := ⟨fun i hi => absurd hi (Nat.not_lt_zero i), h⟩

theorem agree_or_first [DecidableEq α] (a b : Nat → α) : ∀ n, Agree a b n ∨ ∃ i < n, First a b i
  | 0 => Or.inl fun i hi => absurd hi (Nat.not_lt_zero i)
  | n + 1 => by
    rcases agree_or_first a b n with h | ⟨i, hi, h⟩
    · by_cases hn : a n = b n
      · refine Or.inl fun i hi => ?_
        cases Nat.lt_succ_iff_lt_or_eq.1 hi with
        | inl hi => exact h i hi
        | inr hi => rw [hi, hn]
      · exact Or.inr ⟨n, Nat.lt_succ_self n, h, hn⟩
    · exact Or.inr ⟨i, Nat.lt_succ_of_lt hi, h⟩

end FirstDifference

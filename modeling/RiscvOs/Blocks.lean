import Mathlib
/-!
# Blocks laid end to end

The elements of a list take up consecutive blocks of numbers, each as long as its size.  Every number below the sum of
the sizes is an offset in exactly one block (`exists_block`, `block_unique`).
-/
namespace Blocks

variable {α : Type*} (size : α → Nat)

/-- The number block `i` starts at. -/
def start (l : List α) (i : Nat) : Nat := ((l.take i).map size).sum

variable {size} {l : List α}

theorem start_succ {i : Nat} (hi : i < l.length) : start size l (i + 1) = start size l i + size l[i] := by
  have hi' : i < (l.map size).length := by rwa [List.length_map]
  rw [start, start, List.map_take, List.map_take, List.sum_take_succ _ i hi', List.getElem_map]

theorem start_length : start size l l.length = (l.map size).sum := by rw [start, List.take_length]

theorem start_le {i j : Nat} (hij : i ≤ j) (hj : j ≤ l.length) : start size l i ≤ start size l j := by
  induction j with
  | zero => rw [Nat.le_zero.1 hij]
  | succ j ih =>
    rcases Nat.lt_or_eq_of_le hij with h | rfl
    · rw [start_succ hj]
      exact Nat.le_add_right_of_le (ih (Nat.le_of_lt_succ h) (Nat.le_of_lt hj))
    · exact Nat.le_refl _

theorem start_add_le {i j : Nat} (hi : i < l.length) (hij : i < j) (hj : j ≤ l.length) :
    start size l i + size l[i] ≤ start size l j := by
  rw [← start_succ hi]
  exact start_le hij hj

theorem start_add_lt {i q : Nat} (hi : i < l.length) (hq : q < size l[i]) :
    start size l i + q < (l.map size).sum := by
  rw [← start_length]
  exact Nat.lt_of_lt_of_le (Nat.add_lt_add_left hq _) (start_add_le hi hi (Nat.le_refl _))

/-- Blocks that are not empty start at different numbers, and the last ends past all of them. -/
theorem start_inj (hpos : ∀ a ∈ l, 0 < size a) {i j : Nat} (hi : i ≤ l.length) (hj : j ≤ l.length)
    (h : start size l i = start size l j) : i = j := by
  have hlt : ∀ {a b : Nat}, a < b → b ≤ l.length → start size l a < start size l b := by
    intro a b hab hb
    have ha : a < l.length := Nat.lt_of_lt_of_le hab hb
    exact Nat.lt_of_lt_of_le (Nat.lt_add_of_pos_right (hpos _ (List.getElem_mem ha))) (start_add_le ha hab hb)
  rcases Nat.lt_trichotomy i j with hij | hij | hij
  · exact absurd h (Nat.ne_of_lt (hlt hij hj))
  · exact hij
  · exact absurd h.symm (Nat.ne_of_lt (hlt hij hi))

theorem block_unique {i j q r : Nat} (hi : i < l.length) (hj : j < l.length) (hq : q < size l[i]) (hr : r < size l[j])
    (h : start size l i + q = start size l j + r) : i = j ∧ q = r := by
  rcases Nat.lt_trichotomy i j with hij | rfl | hij
  · have := @start_add_le _ size l _ _ hi hij (Nat.le_of_lt hj)
    omega
  · exact ⟨rfl, Nat.add_left_cancel h⟩
  · have := @start_add_le _ size l _ _ hj hij (Nat.le_of_lt hi)
    omega

theorem exists_block : ∀ {l : List α} {n : Nat}, n < (l.map size).sum →
    ∃ i, ∃ hi : i < l.length, ∃ q < size l[i], n = start size l i + q
  | [], n, h => absurd h (Nat.not_lt_zero n)
  | a :: l, n, h => by
    rw [List.map_cons, List.sum_cons] at h
    by_cases hn : n < size a
    · exact ⟨0, Nat.succ_pos _, n, hn, (Nat.zero_add n).symm⟩
    · obtain ⟨i, hi, q, hq, he⟩ := @exists_block l (n - size a) (by omega)
      refine ⟨i + 1, Nat.succ_lt_succ hi, q, hq, ?_⟩
      have hstart : start size (a :: l) (i + 1) = size a + start size l i := by
        rw [start, start, List.take_succ_cons, List.map_cons, List.sum_cons]
      omega

end Blocks

import Mathlib
/-!
# Half-open spans of addresses
-/
namespace Spans

instance decidableDisjointIco (a b c d : Nat) : Decidable (Disjoint (Set.Ico a b) (Set.Ico c d)) :=
  decidable_of_iff _ Set.Ico_disjoint_Ico.symm

/-- Two spans are apart when one is empty or ends before the other begins. -/
theorem disjoint_iff {a b c d : Nat} :
    Disjoint (Set.Ico a b) (Set.Ico c d) ↔ b ≤ a ∨ d ≤ c ∨ b ≤ c ∨ d ≤ a := by
  rw [Set.Ico_disjoint_Ico]
  omega

variable {α : Type*} (lo hi : α → Nat)

def cover : List α → Finset Nat
  | []     => ∅
  | a :: l => Finset.Ico (lo a) (hi a) ∪ cover l

variable {lo hi}

theorem mem_cover {l : List α} {x : Nat} : x ∈ cover lo hi l ↔ ∃ a ∈ l, lo a ≤ x ∧ x < hi a := by
  induction l with
  | nil => simp [cover]
  | cons a l ih => simp [cover, ih]

theorem card_cover : ∀ {l : List α},
    l.Pairwise (fun a b => Disjoint (Set.Ico (lo a) (hi a)) (Set.Ico (lo b) (hi b))) →
    (cover lo hi l).card = (l.map (fun a => hi a - lo a)).sum
  | [], _ => rfl
  | a :: l, h => by
    rw [List.pairwise_cons] at h
    have hd : Disjoint (Finset.Ico (lo a) (hi a)) (cover lo hi l) := by
      rw [Finset.disjoint_left]
      intro x hx hx'
      obtain ⟨b, hb, hbx⟩ := mem_cover.1 hx'
      have := disjoint_iff.1 (h.1 b hb)
      rw [Finset.mem_Ico] at hx
      omega
    rw [cover, Finset.card_union_of_disjoint hd, Nat.card_Ico, card_cover h.2, List.map_cons, List.sum_cons]

/-- **Spans apart from each other below a bound have no more addresses than the bound.** -/
theorem sum_le_of_disjoint {l : List α} {bound : Nat}
    (hd : l.Pairwise (fun a b => Disjoint (Set.Ico (lo a) (hi a)) (Set.Ico (lo b) (hi b))))
    (hb : ∀ a ∈ l, hi a ≤ bound) : (l.map (fun a => hi a - lo a)).sum ≤ bound := by
  rw [← card_cover hd]
  have hsub : cover lo hi l ⊆ Finset.range bound := by
    intro x hx
    obtain ⟨a, ha, -, hlt⟩ := mem_cover.1 hx
    exact Finset.mem_range.2 (Nat.lt_of_lt_of_le hlt (hb a ha))
  simpa using Finset.card_le_card hsub

end Spans

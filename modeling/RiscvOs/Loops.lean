import Mathlib
/-!
# Loops that may not end

One round of a loop goes on from a new state or leaves with a result.  A loop returns at most one result
(`Returns.unique`); it returns when an invariant comes with a variant that falls (`returns_of_variant`), and never does
when an invariant keeps it going (`diverges_of_invariant`).  A loop with stages is followed from one to the next by
`Reaches`.
-/
namespace Loops

variable {σ ρ : Type*} (body : σ → σ ⊕ ρ)

/-- The result, if the loop leaves within so many rounds. -/
def run : Nat → σ → Option ρ
  | 0, _          => none
  | rounds + 1, s => match body s with
    | .inl s' => run rounds s'
    | .inr r  => some r

def Returns (s : σ) (r : ρ) : Prop := ∃ rounds, run body rounds s = some r

def Diverges (s : σ) : Prop := ∀ rounds, run body rounds s = none

variable {body} {s s' : σ} {r r' : ρ}

theorem run_succ_of_inl (h : body s = .inl s') (rounds : Nat) : run body (rounds + 1) s = run body rounds s' := by
  rw [run, h]

theorem run_succ_of_inr (h : body s = .inr r) (rounds : Nat) : run body (rounds + 1) s = some r := by
  rw [run, h]

theorem returns_of_inr (h : body s = .inr r) : Returns body s r := ⟨1, run_succ_of_inr h 0⟩

theorem returns_of_inl (h : body s = .inl s') (hr : Returns body s' r) : Returns body s r := by
  obtain ⟨rounds, hrun⟩ := hr
  exact ⟨rounds + 1, (run_succ_of_inl h rounds).trans hrun⟩

theorem run_unique : ∀ {m n : Nat} {s : σ}, run body m s = some r → run body n s = some r' → r = r'
  | 0, _, _, h, _ => by cases h
  | _ + 1, 0, _, _, h' => by cases h'
  | m + 1, n + 1, s, h, h' => by
    cases hb : body s with
    | inl s' =>
      rw [run_succ_of_inl hb] at h h'
      exact run_unique h h'
    | inr x =>
      rw [run_succ_of_inr hb] at h h'
      rw [← Option.some.inj h, ← Option.some.inj h']

theorem run_mono : ∀ {m n : Nat} {s : σ}, run body m s = some r → m ≤ n → run body n s = some r
  | 0, _, _, h, _ => by cases h
  | _ + 1, 0, _, _, hle => absurd hle (Nat.not_succ_le_zero _)
  | m + 1, n + 1, s, h, hle => by
    cases hb : body s with
    | inl s' =>
      rw [run_succ_of_inl hb] at h ⊢
      exact run_mono h (Nat.le_of_succ_le_succ hle)
    | inr x =>
      rw [run_succ_of_inr hb] at h ⊢
      exact h

theorem Returns.unique (h : Returns body s r) (h' : Returns body s r') : r = r' := by
  obtain ⟨m, hm⟩ := h
  obtain ⟨n, hn⟩ := h'
  exact run_unique hm hn

theorem Diverges.not_returns (h : Diverges body s) : ¬ Returns body s r := by
  rintro ⟨rounds, hrun⟩
  rw [h rounds] at hrun
  cases hrun

/-- **Termination**: every round leaves with a result that will do, or keeps the invariant and lowers the variant. -/
theorem returns_of_variant {I : σ → Prop} {Q : ρ → Prop} (variant : σ → Nat)
    (hround : ∀ s, I s → (∃ r, body s = .inr r ∧ Q r) ∨ ∃ s', body s = .inl s' ∧ I s' ∧ variant s' < variant s) :
    ∀ s, I s → ∃ r, Returns body s r ∧ Q r := by
  intro s
  induction hn : variant s using Nat.strongRecOn generalizing s with
  | ind n ih =>
    intro hs
    rcases hround s hs with ⟨r, hr, hQ⟩ | ⟨s', hs', hI, hlt⟩
    · exact ⟨r, returns_of_inr hr, hQ⟩
    · obtain ⟨r, hr, hQ⟩ := ih (variant s') (hn ▸ hlt) s' rfl hI
      exact ⟨r, returns_of_inl hs' hr, hQ⟩

/-- The variant bounds the rounds. -/
theorem exists_run {I : σ → Prop} (variant : σ → Nat)
    (hround : ∀ s, I s → (∃ r, body s = .inr r) ∨ ∃ s', body s = .inl s' ∧ I s' ∧ variant s' < variant s) :
    ∀ {rounds : Nat} {s : σ}, I s → variant s < rounds → ∃ r, run body rounds s = some r
  | 0, s, _, hlt => absurd hlt (Nat.not_lt_zero _)
  | rounds + 1, s, hs, hlt => by
    rcases hround s hs with ⟨r', hr'⟩ | ⟨s', hs', hI, hfall⟩
    · exact ⟨r', run_succ_of_inr hr' rounds⟩
    · obtain ⟨r', hrun⟩ := exists_run variant hround hI (show variant s' < rounds by omega)
      exact ⟨r', (run_succ_of_inl hs' rounds).trans hrun⟩

theorem run_eq_of_returns {I : σ → Prop} (variant : σ → Nat)
    (hround : ∀ s, I s → (∃ r, body s = .inr r) ∨ ∃ s', body s = .inl s' ∧ I s' ∧ variant s' < variant s)
    {rounds : Nat} (hs : I s) (hlt : variant s < rounds) (h : Returns body s r) : run body rounds s = some r := by
  obtain ⟨r', hrun⟩ := exists_run variant hround hs hlt
  rw [hrun, Returns.unique ⟨rounds, hrun⟩ h]

/-- **Divergence**: every round keeps the invariant and goes on. -/
theorem diverges_of_invariant {I : σ → Prop} (hround : ∀ s, I s → ∃ s', body s = .inl s' ∧ I s') (hs : I s) :
    Diverges body s := by
  intro rounds
  induction rounds generalizing s with
  | zero => rfl
  | succ rounds ih =>
    obtain ⟨s', hs', hI⟩ := hround s hs
    rw [run_succ_of_inl hs']
    exact ih hI

/-! ## Stages of a loop -/

/-- Some rounds lead from one state to another. -/
def Reaches (body : σ → σ ⊕ ρ) : σ → σ → Prop := Relation.ReflTransGen fun a b => body a = .inl b

theorem Reaches.refl (body : σ → σ ⊕ ρ) (s : σ) : Reaches body s s := Relation.ReflTransGen.refl

theorem reaches_of_inl (h : body s = .inl s') : Reaches body s s' := Relation.ReflTransGen.single h

theorem Reaches.trans {s'' : σ} (h : Reaches body s s') (h' : Reaches body s' s'') : Reaches body s s'' :=
  Relation.ReflTransGen.trans h h'

theorem Reaches.head {s'' : σ} (h : body s = .inl s') (h' : Reaches body s' s'') : Reaches body s s'' :=
  Relation.ReflTransGen.head h h'

theorem Reaches.returns (h : Reaches body s s') (hr : Returns body s' r) : Returns body s r := by
  induction h using Relation.ReflTransGen.head_induction_on with
  | refl => exact hr
  | head hstep _ ih => exact returns_of_inl hstep ih

end Loops

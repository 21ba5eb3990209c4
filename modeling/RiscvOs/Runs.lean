import Mathlib
/-!
# Runs of a step that may stop the machine

`run step l s` performs the actions of `l` from `s`.  A property that is preserved exactly by the steps meeting a
condition holds in every state of a run exactly when every step of the run meets it (`always_iff_everyStep`).
-/
namespace Runs

variable {σ α ε : Type*} (step : σ → α → Except ε σ)

def run : List α → σ → Except ε σ
  | [], s     => .ok s
  | a :: l, s => match step s a with
    | .error e => .error e
    | .ok s'   => run l s'

/-- `P` holds in every state the run passes through. -/
def Always (P : σ → Prop) (l : List α) (s : σ) : Prop := ∀ pre t, pre <+: l → run step pre s = .ok t → P t

/-- `G` holds at every step of the run, in the state the step starts from. -/
def EveryStep (G : σ → α → Prop) (l : List α) (s : σ) : Prop :=
  ∀ pre a t, pre ++ [a] <+: l → run step pre s = .ok t → G t a

variable {step}

theorem run_cons_of_ok {a : α} {l : List α} {s s' : σ} (h : step s a = .ok s') :
    run step (a :: l) s = run step l s' := by
  simp [run, h]

theorem always_nil {P : σ → Prop} {s : σ} : Always step P [] s ↔ P s := by
  constructor
  · exact fun h => h [] s (by simp) rfl
  · intro hs pre t hpre ht
    rw [List.prefix_nil.1 hpre] at ht
    cases ht
    exact hs

theorem always_cons {P : σ → Prop} {a : α} {l : List α} {s s' : σ} (h : step s a = .ok s') :
    Always step P (a :: l) s ↔ P s ∧ Always step P l s' := by
  constructor
  · intro hall
    refine ⟨hall [] s (by simp) rfl, fun pre t hpre ht => hall (a :: pre) t ?_ ?_⟩
    · simpa using hpre
    · rw [run_cons_of_ok h, ht]
  · rintro ⟨hs, hall⟩ pre t hpre ht
    cases pre with
    | nil =>
      simp only [run, Except.ok.injEq] at ht
      exact ht ▸ hs
    | cons b pre =>
      obtain ⟨rfl, hpre'⟩ := List.cons_prefix_cons.1 hpre
      rw [run_cons_of_ok h] at ht
      exact hall pre t hpre' ht

theorem everyStep_nil {G : σ → α → Prop} {s : σ} : EveryStep step G [] s := by
  intro pre a t hpre
  simp at hpre

theorem everyStep_cons {G : σ → α → Prop} {a : α} {l : List α} {s s' : σ} (h : step s a = .ok s') :
    EveryStep step G (a :: l) s ↔ G s a ∧ EveryStep step G l s' := by
  constructor
  · intro hall
    refine ⟨hall [] a s (by simp) rfl, fun pre b t hpre ht => hall (a :: pre) b t ?_ ?_⟩
    · simpa using hpre
    · rw [run_cons_of_ok h, ht]
  · rintro ⟨hs, hall⟩ pre b t hpre ht
    cases pre with
    | nil =>
      simp only [run, Except.ok.injEq] at ht
      have hb : b = a := by simpa using hpre
      rw [hb]
      exact ht ▸ hs
    | cons c pre =>
      obtain ⟨rfl, hpre'⟩ := List.cons_prefix_cons.1 hpre
      rw [run_cons_of_ok h] at ht
      exact hall pre b t hpre' ht

/-- **A property kept by exactly the steps that meet `G`**, on a run whose steps all keep `K` and never stop, holds
throughout exactly when every step meets `G`. -/
theorem always_iff_everyStep {K P : σ → Prop} {G : σ → α → Prop} : ∀ (l : List α) (s : σ),
    (∀ t, ∀ a ∈ l, K t → ∃ t', step t a = .ok t' ∧ K t') →
    (∀ t, ∀ a ∈ l, ∀ t', K t → P t → step t a = .ok t' → (P t' ↔ G t a)) → K s → P s →
    (Always step P l s ↔ EveryStep step G l s)
  | [], s, _, _, _, hp => iff_of_true (always_nil.2 hp) everyStep_nil
  | a :: l, s, hK, hP, hk, hp => by
    obtain ⟨s', hs', hk'⟩ := hK s a (by simp) hk
    have hstep := hP s a (by simp) s' hk hp hs'
    have ih := fun hp' => always_iff_everyStep l s' (fun t b hb => hK t b (by simp [hb]))
      (fun t b hb => hP t b (by simp [hb])) hk' hp'
    rw [always_cons hs', everyStep_cons hs']
    constructor
    · rintro ⟨-, hall⟩
      have hp' : P s' := hall [] s' (by simp) rfl
      exact ⟨hstep.1 hp', (ih hp').1 hall⟩
    · rintro ⟨hg, hall⟩
      exact ⟨hp, (ih (hstep.2 hg)).2 hall⟩

end Runs

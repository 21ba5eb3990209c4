import Mathlib.Combinatorics.Enumerative.DyckWord
/-!
# Nested brackets

The elements of a sequence open a bracket (`U`), close one (`D`), or do neither.  `unclosed` keeps the brackets that are
open, as a stack, and a `Balanced` sequence closes all that it opens and nothing else.  A bracket that is open behind a
sequence has only balanced ones between itself and the next (`exists_split`).
-/
namespace Nesting

open DyckStep

variable {α : Type*} (step : α → Option DyckStep)

/-- The brackets that are open behind the sequence, the innermost first; `none` when it closes one that is not. -/
def unclosed : List α → List α → Option (List α)
  | st, []     => some st
  | st, a :: l =>
    match step a, st with
    | none, st          => unclosed st l
    | some U, st        => unclosed (a :: st) l
    | some D, []        => none
    | some D, _ :: rest => unclosed rest l

def Balanced (l : List α) : Prop := unclosed step [] l = some []

variable {step} {st st' : List α} {l l' : List α} {a m : α}

theorem unclosed_other (h : step a = none) (st l : List α) : unclosed step st (a :: l) = unclosed step st l := by
  simp [unclosed, h]

theorem unclosed_opens (h : step a = some U) (st l : List α) :
    unclosed step st (a :: l) = unclosed step (a :: st) l := by
  simp [unclosed, h]

theorem unclosed_closes (h : step a = some D) (b : α) (st l : List α) :
    unclosed step (b :: st) (a :: l) = unclosed step st l := by
  simp [unclosed, h]

theorem unclosed_closes_nil (h : step a = some D) (l : List α) : unclosed step [] (a :: l) = none := by
  simp [unclosed, h]

theorem unclosed_append : ∀ (l : List α) (st : List α) (l' : List α),
    unclosed step st (l ++ l') = (unclosed step st l).bind fun st' => unclosed step st' l'
  | [], _, _ => rfl
  | a :: l, st, l' => by
    rw [List.cons_append]
    cases hs : step a with
    | none => rw [unclosed_other hs, unclosed_other hs, unclosed_append]
    | some s =>
      cases s with
      | U => rw [unclosed_opens hs, unclosed_opens hs, unclosed_append]
      | D =>
        cases st with
        | nil => rw [unclosed_closes_nil hs, unclosed_closes_nil hs, Option.bind_none]
        | cons b st => rw [unclosed_closes hs, unclosed_closes hs, unclosed_append]

theorem unclosed_append_of_eq (h : unclosed step st l = some st') :
    unclosed step st (l ++ l') = unclosed step st' l' := by
  rw [unclosed_append, h, Option.bind_some]

/-- A sequence that closes only what it opens does so whatever is open around it. -/
theorem unclosed_under : ∀ {l st st' : List α} (base : List α), unclosed step st l = some st' →
    unclosed step (st ++ base) l = some (st' ++ base)
  | [], st, st', base, h => by
    rw [unclosed, Option.some.injEq] at h
    rw [unclosed, h]
  | a :: l, st, st', base, h => by
    cases hs : step a with
    | none =>
      rw [unclosed_other hs] at h ⊢
      exact unclosed_under base h
    | some s =>
      cases s with
      | U =>
        rw [unclosed_opens hs] at h ⊢
        exact unclosed_under base h
      | D =>
        cases st with
        | nil =>
          rw [unclosed_closes_nil hs] at h
          cases h
        | cons b st =>
          rw [List.cons_append]
          rw [unclosed_closes hs] at h ⊢
          exact unclosed_under base h

theorem Balanced.unclosed (h : Balanced step l) (st : List α) : unclosed step st l = some st := unclosed_under st h

theorem Balanced.nil : Balanced step ([] : List α) := rfl

theorem Balanced.append (h : Balanced step l) (h' : Balanced step l') : Balanced step (l ++ l') := by
  rw [Balanced, unclosed_append_of_eq h]
  exact h'

/-- A bracket around a balanced sequence. -/
theorem Balanced.nest {b : α} (ha : step a = some U) (h : Balanced step l) (hb : step b = some D) :
    Balanced step (a :: l ++ [b]) := by
  rw [Balanced, List.cons_append, unclosed_opens ha, unclosed_append_of_eq (h.unclosed [a]), unclosed_closes hb]
  rfl

theorem balanced_of_other (h : ∀ a ∈ l, step a = none) : Balanced step l := by
  induction l with
  | nil => rfl
  | cons a l ih =>
    rw [Balanced, unclosed_other (h a List.mem_cons_self)]
    exact ih fun b hb => h b (List.mem_cons_of_mem a hb)

/-- Without an opening, brackets are only closed. -/
theorem unclosed_suffix : ∀ {l st st' : List α}, (∀ a ∈ l, step a ≠ some U) → unclosed step st l = some st' →
    st' <:+ st
  | [], st, st', _, h => by
    rw [unclosed, Option.some.injEq] at h
    rw [h]
  | a :: l, st, st', hopen, h => by
    have hrest : ∀ b ∈ l, step b ≠ some U := fun b hb => hopen b (List.mem_cons_of_mem a hb)
    cases hs : step a with
    | none =>
      rw [unclosed_other hs] at h
      exact unclosed_suffix hrest h
    | some s =>
      cases s with
      | U => exact absurd hs (hopen a List.mem_cons_self)
      | D =>
        cases st with
        | nil =>
          rw [unclosed_closes_nil hs] at h
          cases h
        | cons b st =>
          rw [unclosed_closes hs] at h
          exact (unclosed_suffix hrest h).trans (List.suffix_cons b st)

/-- **An open bracket** stands where it was opened, with balanced ones between it and the end. -/
theorem exists_split : ∀ {l st : List α}, unclosed step [] l = some (m :: st) →
    ∃ before inner, l = before ++ m :: inner ∧ step m = some U ∧ unclosed step [] before = some st ∧
      Balanced step inner := by
  intro l
  induction hn : l.length using Nat.strongRecOn generalizing l m with
  | ind n ih =>
    intro st h
    rcases List.eq_nil_or_concat l with rfl | ⟨l, b, rfl⟩
    · cases h
    rw [List.concat_eq_append] at hn h ⊢
    have hlen : l.length < n := by
      rw [← hn, List.length_append]
      exact Nat.lt_succ_self _
    rw [unclosed_append] at h
    obtain ⟨s, hs, hb⟩ := Option.bind_eq_some_iff.1 h
    cases hstep : step b with
    | none =>
      rw [unclosed_other hstep, unclosed, Option.some.injEq] at hb
      rw [hb] at hs
      obtain ⟨before, inner, rfl, hm, hbefore, hinner⟩ := ih l.length hlen rfl hs
      refine ⟨before, inner ++ [b], by simp, hm, hbefore, hinner.append (balanced_of_other ?_)⟩
      exact fun a ha => (List.mem_singleton.1 ha) ▸ hstep
    | some d =>
      cases d with
      | U =>
        rw [unclosed_opens hstep, unclosed, Option.some.injEq, List.cons.injEq] at hb
        obtain ⟨rfl, rfl⟩ := hb
        exact ⟨l, [], rfl, hstep, hs, Balanced.nil⟩
      | D =>
        cases s with
        | nil =>
          rw [unclosed_closes_nil hstep] at hb
          cases hb
        | cons x s =>
          rw [unclosed_closes hstep, unclosed, Option.some.injEq] at hb
          rw [hb] at hs
          obtain ⟨middle, inner, rfl, hx, hmiddle, hinner⟩ := ih l.length hlen rfl hs
          have hshort : middle.length < n := by
            rw [List.length_append] at hlen
            omega
          obtain ⟨before, outer, rfl, hm, hbefore, houter⟩ := ih middle.length hshort rfl hmiddle
          refine ⟨before, outer ++ (x :: inner ++ [b]), by simp, hm, hbefore, houter.append ?_⟩
          exact hinner.nest hx hstep

/-- A balanced sequence is behind the bracket that it is in. -/
theorem unclosed_of_split (hm : step m = some U) (h : unclosed step [] l = some st) (hinner : Balanced step l') :
    unclosed step [] (l ++ m :: l') = some (m :: st) := by
  rw [unclosed_append_of_eq h, unclosed_opens hm]
  exact hinner.unclosed _

end Nesting

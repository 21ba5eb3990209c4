import Mathlib
/-!
# First fit over a list of candidates

An allocator that always hands out the first candidate not in use.  What a run of any length hands out is read off the
list of free candidates it starts from (`run_eq`): call `i` gets the `i`-th of them, and every later call nothing.
-/
namespace FirstFit

variable {α : Type*} [DecidableEq α]

def free (cands : List α) (used : Finset α) : List α := cands.filter (fun a => decide (a ∉ used))

def alloc (cands : List α) (used : Finset α) : Option α := (free cands used).head?

def after (cands : List α) (used : Finset α) : Finset α :=
  match alloc cands used with
  | none   => used
  | some a => insert a used

def run (cands : List α) : Nat → Finset α → List (Option α)
  | 0, _        => []
  | n + 1, used => alloc cands used :: run cands n (after cands used)

theorem mem_free {cands : List α} {used : Finset α} {a : α} : a ∈ free cands used ↔ a ∈ cands ∧ a ∉ used := by
  simp [free]

theorem alloc_eq_none {cands : List α} {used : Finset α} : alloc cands used = none ↔ ∀ a ∈ cands, a ∈ used := by
  simp [alloc, free]

theorem alloc_range_eq_some {n : Nat} {used : Finset Nat} {k : Nat} :
    alloc (List.range n) used = some k ↔ k < n ∧ k ∉ used ∧ ∀ j < k, j ∈ used := by
  rw [alloc, free, List.head?_filter, List.find?_range_eq_some]
  simp
  tauto

theorem free_insert_head {used : Finset α} {a : α} : ∀ {cands rest : List α}, cands.Nodup →
    free cands used = a :: rest → free cands (insert a used) = rest
  | [], _, _, h => by cases h
  | c :: cands, rest, hnd, h => by
    rw [List.nodup_cons] at hnd
    by_cases hc : c ∈ used
    · have h' : free cands used = a :: rest := by simpa [free, List.filter_cons, hc] using h
      have hcons : free (c :: cands) (insert a used) = free cands (insert a used) := by
        simp [free, hc]
      rw [hcons, free_insert_head hnd.2 h']
    · have h' : c = a ∧ free cands used = rest := by simpa [free, List.filter_cons, hc] using h
      obtain ⟨rfl, rfl⟩ := h'
      have hcons : free (c :: cands) (insert c used) = free cands (insert c used) := by simp [free]
      rw [hcons]
      exact List.filter_congr (fun x hx => by
        have hxc : x ≠ c := fun he => hnd.1 (he ▸ hx)
        simp [hxc])

/-- **Every call of a run, read off the free list it starts from.** -/
theorem run_eq {cands : List α} (hnd : cands.Nodup) : ∀ (n : Nat) (used : Finset α),
    run cands n used = (List.range n).map (fun i => (free cands used)[i]?)
  | 0, _ => rfl
  | n + 1, used => by
    rw [run, run_eq hnd n, List.range_succ_eq_map, List.map_cons, List.map_map]
    cases hf : free cands used with
    | nil => simp [alloc, after, hf, Function.comp_def]
    | cons a rest =>
      have ha : alloc cands used = some a := by simp [alloc, hf]
      simp only [after, ha, free_insert_head hnd hf]
      simp [Function.comp_def]

theorem getElem?_run {cands : List α} (hnd : cands.Nodup) {n i : Nat} (used : Finset α) (hi : i < n) :
    (run cands n used)[i]? = some (free cands used)[i]? := by
  rw [run_eq hnd, List.getElem?_map, List.getElem?_range hi, Option.map_some]

/-- Nothing is handed out twice. -/
theorem not_mem_before {cands : List α} (hnd : cands.Nodup) {n : Nat} {used : Finset α} {a : α}
    {pre post : List (Option α)} (h : run cands n used = pre ++ some a :: post) : some a ∉ pre := by
  intro hmem
  obtain ⟨j, hj, hja⟩ := List.mem_iff_getElem.1 hmem
  have hlen : n = pre.length + (post.length + 1) := by
    have := congrArg List.length h
    rw [run_eq hnd] at this
    simpa using this
  have hat : ∀ i, i < n → (run cands n used)[i]? = some (some a) → (free cands used)[i]? = some a := fun i hi he => by
    rw [getElem?_run hnd used hi] at he
    exact Option.some.inj he
  have h1 : (free cands used)[j]? = some a := hat j (by omega) (by
    rw [h, List.getElem?_append_left hj, List.getElem?_eq_getElem hj, hja])
  have h2 : (free cands used)[pre.length]? = some a := hat pre.length (by omega) (by rw [h]; simp)
  have hlt : j < (free cands used).length := (List.getElem?_eq_some_iff.1 h1).1
  exact Nat.ne_of_lt hj ((List.getElem?_inj hlt (hnd.filter _)).1 (h1.trans h2.symm))

/-- **A value is handed out by some run exactly when it is free at the start.** -/
theorem exists_mem_run {cands : List α} (hnd : cands.Nodup) (used : Finset α) (a : α) :
    (∃ n, some a ∈ run cands n used) ↔ a ∈ cands ∧ a ∉ used := by
  rw [← mem_free]
  constructor
  · rintro ⟨n, h⟩
    rw [run_eq hnd] at h
    obtain ⟨i, -, hi⟩ := List.mem_map.1 h
    exact List.mem_of_getElem? hi
  · intro h
    obtain ⟨i, hi⟩ := List.mem_iff_getElem?.1 h
    refine ⟨i + 1, ?_⟩
    rw [run_eq hnd]
    exact List.mem_map.2 ⟨i, by simp, hi⟩

end FirstFit

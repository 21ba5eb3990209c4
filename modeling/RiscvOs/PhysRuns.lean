import RiscvOs.FirstFit
import RiscvOs.PhysAlloc
/-!
# Runs of `pmm_allocate_page`

A run hands out the free slots of the bitmap in order, each under the address `find_physical_addr_of_page` gives it.
That address is the page of the slot's index in the first region long enough, so two slots never share one.
-/
namespace RiscvOs

/-! ## One call, one run -/

theorem findPhysicalAddrOfPage_last {t : List RamDescriptor} (hreg : ∀ r ∈ t, r.Regular) :
    findPhysicalAddrOfPage t (2 ^ 32 - 1) = 0 := by
  by_contra h
  obtain ⟨r, hr, hlt, -⟩ := findPhysicalAddrOfPage_mem hreg h
  have hsize := (hreg r hr).size_lt
  have hpages := (hreg r hr).spaceSize_eq
  omega

/-- **A call is first fit over the slots**, and `NULL` when none is free. -/
theorem pmmAllocatePage_spec {t : List RamDescriptor} (hreg : ∀ r ∈ t, r.Regular) {s : BitmapState 32}
    (hcap : s.capacity ≤ 2 ^ 32) :
    (pmmAllocatePage t s).1 =
        (FirstFit.alloc (List.range s.capacity) s.used).elim 0 (findPhysicalAddrOfPage t) ∧
      (pmmAllocatePage t s).2.used = FirstFit.after (List.range s.capacity) s.used ∧
      (pmmAllocatePage t s).2.capacity = s.capacity := by
  have hslot := bitmapAllocateSlot_spec s
  cases ha : FirstFit.alloc (List.range s.capacity) s.used with
  | none =>
    simp only [ha] at hslot
    simp [pmmAllocatePage, hslot, FirstFit.after, ha]
  | some k =>
    simp only [ha] at hslot
    obtain ⟨hret, hused, hmap⟩ := hslot
    have hk : k < 2 ^ 32 := Nat.lt_of_lt_of_le (FirstFit.alloc_range_eq_some.1 ha).1 hcap
    have hpage : (pmmAllocatePage t s).1 = findPhysicalAddrOfPage t k := by
      by_cases hlast : toInt32 k = -1
      · rw [(toInt32_eq_neg_one_iff hk).1 hlast, findPhysicalAddrOfPage_last hreg, pmmAllocatePage]
        simp only [hret, hlast, if_true]
      · simp only [pmmAllocatePage, hret, if_neg hlast, toUint32_toInt32 hk]
    have hstate : (pmmAllocatePage t s).2 = (bitmapAllocateSlot s).2 := by
      simp only [pmmAllocatePage]
      split <;> rfl
    refine ⟨hpage, ?_, ?_⟩
    · rw [hstate, hused, FirstFit.after, ha]
    · rw [hstate, BitmapState.capacity, hmap]
      rfl

/-- **A run is the run of first fit**, read through the page numbering. -/
theorem pmmRun_eq {t : List RamDescriptor} (hreg : ∀ r ∈ t, r.Regular) : ∀ (n : Nat) (s : BitmapState 32),
    s.capacity ≤ 2 ^ 32 →
    (pmmRun t n s).1 =
      (FirstFit.run (List.range s.capacity) n s.used).map (fun o => o.elim 0 (findPhysicalAddrOfPage t))
  | 0, _, _ => rfl
  | n + 1, s, hcap => by
    obtain ⟨hret, hused, hcap'⟩ := pmmAllocatePage_spec hreg hcap
    rw [pmmRun, pmmRun_eq hreg n _ (hcap'.symm ▸ hcap), FirstFit.run, List.map_cons, hret, hused, hcap']

def BitmapState.free (s : BitmapState 32) : List Nat := FirstFit.free (List.range s.capacity) s.used

theorem BitmapState.mem_free {s : BitmapState 32} {q : Nat} : q ∈ s.free ↔ q < s.capacity ∧ q ∉ s.used := by
  rw [BitmapState.free, FirstFit.mem_free, List.mem_range]

theorem BitmapState.free_sorted (s : BitmapState 32) : s.free.Pairwise (· < ·) :=
  List.pairwise_lt_range.filter _

section Runs

variable {t : List RamDescriptor} {s : BitmapState 32}

/-- **A page is handed out by some run exactly when a free slot stands for it.** -/
theorem exists_mem_pmmRun (hreg : ∀ r ∈ t, r.Regular) (hcap : s.capacity ≤ 2 ^ 32) {p : Nat} (hp : p ≠ 0) :
    (∃ n, p ∈ (pmmRun t n s).1) ↔ ∃ q ∈ s.free, findPhysicalAddrOfPage t q = p := by
  constructor
  · rintro ⟨n, h⟩
    rw [pmmRun_eq hreg n s hcap] at h
    obtain ⟨o, ho, hop⟩ := List.mem_map.1 h
    cases o with
    | none => exact absurd hop.symm hp
    | some q =>
      exact ⟨q, FirstFit.mem_free.2 ((FirstFit.exists_mem_run List.nodup_range s.used q).1 ⟨n, ho⟩), hop⟩
  · rintro ⟨q, hq, hqp⟩
    obtain ⟨n, hn⟩ := (FirstFit.exists_mem_run List.nodup_range s.used q).2 (FirstFit.mem_free.1 hq)
    refine ⟨n, ?_⟩
    rw [pmmRun_eq hreg n s hcap]
    exact List.mem_map.2 ⟨some q, hn, hqp⟩

theorem pmmRun_eq_map (hreg : ∀ r ∈ t, r.Regular) (hcap : s.capacity ≤ 2 ^ 32) (n : Nat) :
    (pmmRun t n s).1 = (List.range n).map (fun i => s.free[i]?.elim 0 (findPhysicalAddrOfPage t)) := by
  rw [pmmRun_eq hreg n s hcap, FirstFit.run_eq List.nodup_range, List.map_map]
  rfl

/-! ## Up to the first `NULL` -/

theorem findPhysicalAddrOfPage_ne_zero (hreg : ∀ r ∈ t, r.Regular) (hpos : ∀ r ∈ t, 0 < r.physicaddr) {i j : Nat}
    (hij : i ≤ j) (hj : findPhysicalAddrOfPage t j ≠ 0) : findPhysicalAddrOfPage t i ≠ 0 := by
  obtain ⟨r, hr, hlt, -⟩ := findPhysicalAddrOfPage_mem hreg hj
  rcases findPhysicalAddrOfPage_cases hreg i with ⟨-, hall⟩ | ⟨pre, x, post, ht, -, -, hpage⟩
  · exact absurd (Nat.lt_of_le_of_lt hij hlt) (Nat.not_lt.2 (hall r hr))
  · have hx := hpos x (by rw [ht]; exact List.mem_append_right _ List.mem_cons_self)
    rw [hpage, RamDescriptor.page]
    omega

theorem exists_first_null (hreg : ∀ r ∈ t, r.Regular) (hcap : s.capacity ≤ 2 ^ 32) :
    ∃ n ps, (pmmRun t n s).1 = ps ++ [0] ∧ 0 ∉ ps := by
  have hnull : 0 ∈ (pmmRun t (s.free.length + 1) s).1 := by
    rw [pmmRun_eq_map hreg hcap]
    exact List.mem_map.2 ⟨s.free.length, by simp, by simp⟩
  obtain ⟨ps, post, hrun, hps⟩ := List.eq_append_cons_of_mem hnull
  have hlen : ps.length + 1 ≤ s.free.length + 1 := by
    have := congrArg List.length hrun
    rw [pmmRun_eq_map hreg hcap] at this
    simp at this
    omega
  refine ⟨ps.length + 1, ps, ?_, hps⟩
  have htake := congrArg (List.take (ps.length + 1)) hrun
  rw [pmmRun_eq_map hreg hcap, ← List.map_take, List.take_range, Nat.min_eq_left hlen] at htake
  rw [pmmRun_eq_map hreg hcap, htake, List.take_length_add_append, List.take_succ_cons, List.take_zero]

/-- **By the first `NULL` every page a free slot stands for has been returned.** -/
theorem mem_before_null_iff (hreg : ∀ r ∈ t, r.Regular) (hpos : ∀ r ∈ t, 0 < r.physicaddr)
    (hcap : s.capacity ≤ 2 ^ 32) {n : Nat} {ps : List Nat} (hrun : (pmmRun t n s).1 = ps ++ [0]) {p : Nat}
    (hp : p ≠ 0) : p ∈ ps ↔ ∃ q ∈ s.free, findPhysicalAddrOfPage t q = p := by
  constructor
  · intro hmem
    exact (exists_mem_pmmRun hreg hcap hp).1 ⟨n, by rw [hrun]; exact List.mem_append_left _ hmem⟩
  · rintro ⟨q, hq, hqp⟩
    obtain ⟨i, hi⟩ := List.mem_iff_getElem?.1 hq
    rw [pmmRun_eq_map hreg hcap] at hrun
    have hlen : n = ps.length + 1 := by simpa using congrArg List.length hrun
    have hat : ∀ j < n, (ps ++ [0])[j]? = some (s.free[j]?.elim 0 (findPhysicalAddrOfPage t)) := by
      intro j hj
      rw [← hrun, List.getElem?_map, List.getElem?_range hj]
      rfl
    have hlt : i < ps.length := by
      by_contra hge
      have hlast := hat ps.length (by omega)
      obtain ⟨hi', hie⟩ := List.getElem?_eq_some_iff.1 hi
      have hj : ps.length < s.free.length := by omega
      have hle : s.free[ps.length] ≤ q := by
        rcases Nat.lt_or_eq_of_le (Nat.le_of_not_lt hge) with hlt | heq
        · rw [← hie]
          exact Nat.le_of_lt (List.pairwise_iff_getElem.1 s.free_sorted _ _ hj hi' hlt)
        · simp only [heq, hie, Nat.le_refl]
      rw [List.getElem?_eq_getElem hj] at hlast
      have hzero : findPhysicalAddrOfPage t s.free[ps.length] = 0 := by simpa using hlast.symm
      exact findPhysicalAddrOfPage_ne_zero hreg hpos hle (hqp ▸ hp) hzero
    have hmem := hat i (by omega)
    rw [List.getElem?_append_left hlt, hi] at hmem
    rw [← hqp]
    exact List.mem_of_getElem? hmem

end Runs

/-! ## No page twice -/

theorem findPhysicalAddrOfPage_inj (T : RamTable) {i j : Nat} (hi : findPhysicalAddrOfPage T.regions i ≠ 0)
    (he : findPhysicalAddrOfPage T.regions i = findPhysicalAddrOfPage T.regions j) : i = j := by
  rcases findPhysicalAddrOfPage_cases T.regular i with ⟨h0, -⟩ | ⟨pre, r, post, ht, -, hlt, hpage⟩
  · exact absurd h0 hi
  · have hj : findPhysicalAddrOfPage T.regions j = r.page i := he.symm.trans hpage
    exact ((findPhysicalAddrOfPage_eq_page_iff hlt (hpage ▸ hi) ht T.regular T.disjoint j).1 hj).1.symm

/-- **Whatever the bitmap holds at the start, every page a run returns is aligned, inside one region, and new.** -/
theorem pmmRun_pages (T : RamTable) (s : BitmapState 32) (hcap : s.map.slotsSize * 32 ≤ 2 ^ 32) (n : Nat)
    (pre post : List Nat) (p : Nat) (hrun : (pmmRun T.regions n s).1 = pre ++ p :: post) (hp : p ≠ 0) :
    4096 ∣ p ∧ (∃ r ∈ T.regions, r.physicaddr ≤ p ∧ p + 4096 ≤ r.stop) ∧ p ∉ pre := by
  rw [pmmRun_eq T.regular n s hcap] at hrun
  obtain ⟨before, rest, hsplit, hbefore, hrest⟩ := List.map_eq_append_iff.1 hrun
  obtain ⟨o, after, rfl, hop, -⟩ := List.map_eq_cons_iff.1 hrest
  cases o with
  | none => exact absurd hop.symm hp
  | some q =>
    change findPhysicalAddrOfPage T.regions q = p at hop
    obtain ⟨r, hr, hlt, hpage⟩ := findPhysicalAddrOfPage_mem T.regular (hop ▸ hp)
    have hreg := T.regular r hr
    rw [hop] at hpage
    refine ⟨hpage ▸ hreg.page_dvd q, ⟨r, hr, ?_, hpage ▸ hreg.page_lt hlt⟩, ?_⟩
    · rw [hpage, RamDescriptor.page]
      exact Nat.le_add_right _ _
    · rw [← hbefore]
      intro hmem
      obtain ⟨o', ho', hop'⟩ := List.mem_map.1 hmem
      cases o' with
      | none => exact hp hop'.symm
      | some q' =>
        change findPhysicalAddrOfPage T.regions q' = p at hop'
        obtain rfl := findPhysicalAddrOfPage_inj T (hop ▸ hp) (hop.trans hop'.symm)
        exact FirstFit.not_mem_before List.nodup_range hsplit ho'

/-- Two regions, the longer one last. -/
def twoRegions : RamTable where
  regions := [⟨0x80000000, 0x4000⟩, ⟨0x90000000, 0x8000⟩]
  regular := by decide
  disjoint := by decide

/-- One word of bitmap with slots 0 and 1 in use: the first two calls return the pages of slots 2 and 3. -/
theorem pmmRun_pages_twoRegions :
    4096 ∣ 0x80003000 ∧ (∃ r ∈ twoRegions.regions, r.physicaddr ≤ 0x80003000 ∧ 0x80003000 + 4096 ≤ r.stop) ∧
      0x80003000 ∉ [0x80002000] :=
  pmmRun_pages twoRegions ⟨⟨1, 30, 0, 0x80000000⟩, fun _ => 3⟩ (by decide) 2 [0x80002000] [] 0x80003000 (by decide)
    (by decide)

end RiscvOs

import RiscvOs.Blocks
import RiscvOs.PageNumbers
/-!
# The numbers of `physic_addr_to_ppn`, from the layout of the table

The test `page_ptr <= phys_addr + size` lets a region answer for the page just past it, and never succeeds for a region
that ends at `2 ^ 32`.  So the first page of a region can be numbered by another place in the table than its own
(`RamTable.place`), and a page that no region has is numbered when a region ends there.  `RamTable.firstNumber` says
which number an address has in terms of the table alone, and `RamTable.physicAddrToPpn_eq` that the loop finds it.
-/
namespace RiscvOs

/-! ## The regions that answer for a page -/

/-- The test of the loop: it holds of the page past the end as well, and of nothing when the end wraps. -/
def RamDescriptor.Answers (r : RamDescriptor) (p : Nat) : Prop :=
  r.physicaddr ≤ p ∧ p ≤ r.stop ∧ r.stop < 2 ^ 32

instance (r : RamDescriptor) (p : Nat) : Decidable (r.Answers p) :=
  inferInstanceAs (Decidable (r.physicaddr ≤ p ∧ p ≤ r.stop ∧ r.stop < 2 ^ 32))

theorem RamDescriptor.Regular.answers_iff {r : RamDescriptor} (hr : r.Regular) (p : Nat) :
    (p ≥ r.physicaddr ∧ p ≤ wrap32 (r.physicaddr + r.spaceSize)) ↔ r.Answers p := by
  have hsize := hr.size_lt
  have hstop := hr.stop_le
  simp only [RamDescriptor.Answers, RamDescriptor.stop, wrap32] at *
  omega

theorem physicAddrToPpnFrom_none {p : Nat} : ∀ {t : List RamDescriptor} {counter : Nat}, (∀ r ∈ t, r.Regular) →
    (∀ r ∈ t, ¬ r.Answers p) → physicAddrToPpnFrom p t counter = -1
  | [], _, _, _ => rfl
  | r :: t, counter, hreg, hnone => by
    have hr := (hreg r List.mem_cons_self).answers_iff p
    rw [physicAddrToPpnFrom, if_neg (fun h => hnone r List.mem_cons_self (hr.1 h))]
    exact physicAddrToPpnFrom_none (fun x hx => hreg x (List.mem_cons_of_mem _ hx))
      (fun x hx => hnone x (List.mem_cons_of_mem _ hx))

theorem physicAddrToPpnFrom_first {p : Nat} {r : RamDescriptor} {post : List RamDescriptor} :
    ∀ {pre : List RamDescriptor} {counter : Nat}, (∀ x ∈ pre ++ r :: post, x.Regular) → (∀ x ∈ pre, ¬ x.Answers p) →
    r.Answers p → counter + RamTable.totalPages (pre ++ r :: post) < 2 ^ 31 →
    physicAddrToPpnFrom p (pre ++ r :: post) counter =
      ((counter + RamTable.totalPages pre + (p - r.physicaddr) / 4096 : Nat) : Int)
  | [], counter, hreg, _, hans, hcount => by
    obtain ⟨h1, h2, hlt⟩ := hans
    have hpages := (hreg r (by simp)).stop_eq
    rw [List.nil_append, RamTable.totalPages_cons] at hcount
    rw [List.nil_append, physicAddrToPpnFrom_hit hlt _ h1 h2, toInt32_of_lt (by omega)]
    rfl
  | x :: pre, counter, hreg, hnone, hans, hcount => by
    have hx := hreg x (by simp)
    rw [List.cons_append, RamTable.totalPages_cons] at hcount
    have hwrap : wrap32 (counter + x.spaceSize / pageSize) = counter + x.pages :=
      wrap32_of_lt (show counter + x.pages < 2 ^ 32 by omega)
    rw [List.cons_append, physicAddrToPpnFrom, if_neg (fun h => hnone x List.mem_cons_self ((hx.answers_iff p).1 h)),
      hwrap, physicAddrToPpnFrom_first (fun y hy => hreg y (List.mem_cons_of_mem _ hy))
        (fun y hy => hnone y (List.mem_cons_of_mem _ hy)) hans (by omega), RamTable.totalPages_cons,
      Nat.add_assoc counter]

namespace RamTable

variable (T : RamTable)

/-- The number the pages of region `i` are counted from. -/
def base (i : Nat) : Nat := Blocks.start RamDescriptor.pages T.regions i

/-- The address is RAM. -/
def Has (a : Nat) : Prop := ∃ r ∈ T.regions, a ∈ r.span

variable {T}

instance (a : Nat) : Decidable (T.Has a) :=
  inferInstanceAs (Decidable (∃ r ∈ T.regions, r.physicaddr ≤ a ∧ a < r.stop))

theorem regular_getElem {i : Nat} (hi : i < T.regions.length) : T.regions[i].Regular :=
  T.regular _ (List.getElem_mem hi)

/-- The first region that answers decides the number. -/
theorem physicAddrToPpnFrom_at {i p : Nat} (hi : i < T.regions.length) (hans : T.regions[i].Answers p)
    (hfirst : ∀ j, ∀ hj : j < T.regions.length, j < i → ¬ T.regions[j].Answers p) :
    physicAddrToPpnFrom p T.regions 0 = ((T.base i + (p - T.regions[i].physicaddr) / 4096 : Nat) : Int) := by
  have hle := T.totalPages_le
  have hsplit : T.regions = T.regions.take i ++ T.regions[i] :: T.regions.drop (i + 1) := by simp
  have hpre : ∀ x ∈ T.regions.take i, ¬ x.Answers p := by
    intro x hx
    obtain ⟨j, hj, rfl⟩ := List.mem_iff_getElem.1 hx
    rw [List.length_take, lt_min_iff] at hj
    rw [List.getElem_take]
    exact hfirst j hj.2 hj.1
  have hcount := @physicAddrToPpnFrom_first p T.regions[i] (T.regions.drop (i + 1)) (T.regions.take i) 0
    (by rw [← hsplit]; exact T.regular) hpre hans (by rw [← hsplit]; omega)
  rw [← hsplit, Nat.zero_add] at hcount
  exact hcount

theorem apart_getElem {i j : Nat} (hi : i < T.regions.length) (hj : j < T.regions.length) (hij : i ≠ j) :
    Disjoint T.regions[i].span T.regions[j].span := by
  rcases Nat.lt_or_gt_of_ne hij with h | h
  · exact List.pairwise_iff_getElem.1 T.disjoint i j hi hj h
  · exact (List.pairwise_iff_getElem.1 T.disjoint j i hj hi h).symm

/-- For a page of region `i` only the region itself can answer, and for its first page the region that ends there. -/
theorem answers_page_iff {i k q : Nat} (hi : i < T.regions.length) (hk : k < T.regions.length)
    (hq : q < T.regions[i].pages) :
    T.regions[k].Answers (T.regions[i].page q) ↔
      k = i ∧ T.regions[i].stop < 2 ^ 32 ∨ q = 0 ∧ T.regions[k].stop = T.regions[i].physicaddr := by
  have hri := T.regular_getElem hi
  have hpage := hri.page_lt hq
  have hstop := hri.stop_le
  have hpos := (T.regular_getElem hk).nonempty
  by_cases hki : k = i
  · subst hki
    rw [eq_self, true_and]
    simp only [RamDescriptor.Answers, RamDescriptor.page, RamDescriptor.stop] at *
    omega
  · have hsep := Spans.disjoint_iff.1 (T.apart_getElem hk hi hki)
    simp only [RamDescriptor.Answers, RamDescriptor.page, RamDescriptor.stop] at *
    omega

theorem stop_inj {j k : Nat} (hj : j < T.regions.length) (hk : k < T.regions.length)
    (h : T.regions[j].stop = T.regions[k].stop) : j = k := by
  by_contra hjk
  have hsep := Spans.disjoint_iff.1 (T.apart_getElem hj hk hjk)
  have h1 := (T.regular_getElem hj).nonempty
  have h2 := (T.regular_getElem hk).nonempty
  simp only [RamDescriptor.stop] at *
  omega

/-! ## The place a region takes -/

/-- The place in the table the first page of region `i` is numbered by: the one after the region that ends where `i`
begins, if that one is asked first or `i` itself never answers, and its own otherwise. -/
def place (T : RamTable) : Fin T.regions.length → Nat
  | ⟨i, hi⟩ =>
    match T.regions.findIdx? (fun p => p.stop == T.regions[i].physicaddr) with
    | some j => if j < i ∨ T.regions[i].stop = 2 ^ 32 then j + 1 else i
    | none   => i

theorem place_of_adjoins {i j : Nat} (hi : i < T.regions.length) (hj : j < T.regions.length)
    (h : T.regions[j].stop = T.regions[i].physicaddr) :
    T.place ⟨i, hi⟩ = if j < i ∨ T.regions[i].stop = 2 ^ 32 then j + 1 else i := by
  have hfind : T.regions.findIdx? (fun p => p.stop == T.regions[i].physicaddr) = some j := by
    rw [List.findIdx?_eq_some_iff_getElem]
    refine ⟨hj, by simpa using h, fun k hk hstop => ?_⟩
    have hk' : k < T.regions.length := Nat.lt_trans hk hj
    rw [beq_iff_eq] at hstop
    exact Nat.ne_of_lt hk (T.stop_inj hk' hj (hstop.trans h.symm))
  rw [place, hfind]

theorem place_of_not_adjoins {i : Nat} (hi : i < T.regions.length)
    (h : ∀ r ∈ T.regions, r.stop ≠ T.regions[i].physicaddr) : T.place ⟨i, hi⟩ = i := by
  have hfind : T.regions.findIdx? (fun p => p.stop == T.regions[i].physicaddr) = none := by
    rw [List.findIdx?_eq_none_iff]
    intro r hr
    rw [beq_eq_false_iff_ne]
    exact h r hr
  rw [place, hfind]

theorem place_le (i : Fin T.regions.length) : T.place i ≤ T.regions.length := by
  obtain ⟨i, hi⟩ := i
  by_cases hadj : ∃ r ∈ T.regions, r.stop = T.regions[i].physicaddr
  · obtain ⟨r, hr, hstop⟩ := hadj
    obtain ⟨j, hj, rfl⟩ := List.mem_iff_getElem.1 hr
    rw [T.place_of_adjoins hi hj hstop]
    split
    · exact hj
    · exact Nat.le_of_lt hi
  · rw [T.place_of_not_adjoins hi fun r hr hstop => hadj ⟨r, hr, hstop⟩]
    exact Nat.le_of_lt hi

/-! ## The number of a page -/

theorem base_length : T.base T.regions.length = totalPages T.regions := Blocks.start_length

theorem base_inj {i j : Nat} (hi : i ≤ T.regions.length) (hj : j ≤ T.regions.length) (h : T.base i = T.base j) :
    i = j :=
  Blocks.start_inj (fun r hr => (T.regular r hr).pages_pos) hi hj h

theorem base_add_lt {i q : Nat} (hi : i < T.regions.length) (hq : q < T.regions[i].pages) :
    T.base i + q < totalPages T.regions := Blocks.start_add_lt hi hq

theorem base_succ {i : Nat} (hi : i < T.regions.length) : T.base (i + 1) = T.base i + T.regions[i].pages :=
  Blocks.start_succ hi

theorem ppn_page_of_own {i q : Nat} (hi : i < T.regions.length) (hq : q < T.regions[i].pages)
    (hlt : T.regions[i].stop < 2 ^ 32)
    (hfirst : ∀ j, ∀ hj : j < T.regions.length, j < i → q = 0 → T.regions[j].stop ≠ T.regions[i].physicaddr) :
    physicAddrToPpnFrom (T.regions[i].page q) T.regions 0 = ((T.base i + q : Nat) : Int) := by
  rw [physicAddrToPpnFrom_at hi ((answers_page_iff hi hi hq).2 (Or.inl ⟨rfl, hlt⟩))]
  · rw [RamDescriptor.page, Nat.add_sub_cancel_left, Nat.mul_div_cancel _ (by decide)]
  · intro j hj hji hans
    rcases (answers_page_iff hi hj hq).1 hans with ⟨rfl, -⟩ | ⟨hq0, hstop⟩
    · exact Nat.lt_irrefl _ hji
    · exact hfirst j hj hji hq0 hstop

theorem ppn_page_of_adjoins {i j : Nat} (hi : i < T.regions.length) (hj : j < T.regions.length)
    (h : T.regions[j].stop = T.regions[i].physicaddr) (hji : j < i ∨ T.regions[i].stop = 2 ^ 32) :
    physicAddrToPpnFrom (T.regions[i].page 0) T.regions 0 = (T.base (j + 1) : Int) := by
  have hpos := (T.regular_getElem hi).pages_pos
  have hrj := T.regular_getElem hj
  rw [physicAddrToPpnFrom_at hj ((answers_page_iff hi hj hpos).2 (Or.inr ⟨rfl, h⟩))]
  · have hstop := hrj.stop_eq
    have hdiff : T.regions[i].page 0 - T.regions[j].physicaddr = T.regions[j].pages * 4096 := by
      rw [RamDescriptor.page]
      omega
    rw [hdiff, Nat.mul_div_cancel _ (by decide), base_succ hj]
  · intro k hk hkj hans
    rcases (answers_page_iff hi hk hpos).1 hans with ⟨rfl, hlt⟩ | ⟨-, hstop⟩
    · omega
    · exact Nat.ne_of_lt hkj (T.stop_inj hk hj (hstop.trans h.symm))

/-- **The first page of a region is numbered by the place it takes.** -/
theorem ppn_page_zero {i : Nat} (hi : i < T.regions.length)
    (h : T.regions[i].stop < 2 ^ 32 ∨ ∃ r ∈ T.regions, r.stop = T.regions[i].physicaddr) :
    physicAddrToPpnFrom (T.regions[i].page 0) T.regions 0 = (T.base (T.place ⟨i, hi⟩) : Int) := by
  have hle := (T.regular_getElem hi).stop_le
  have hpos := (T.regular_getElem hi).pages_pos
  by_cases hadj : ∃ r ∈ T.regions, r.stop = T.regions[i].physicaddr
  · obtain ⟨r, hr, hstop⟩ := hadj
    obtain ⟨j, hj, rfl⟩ := List.mem_iff_getElem.1 hr
    rw [T.place_of_adjoins hi hj hstop]
    by_cases hji : j < i ∨ T.regions[i].stop = 2 ^ 32
    · rw [if_pos hji]
      exact ppn_page_of_adjoins hi hj hstop hji
    · rw [if_neg hji]
      push Not at hji
      refine ppn_page_of_own hi hpos (Nat.lt_of_le_of_ne hle hji.2) fun k hk hki _ hstop' => ?_
      have hkj := T.stop_inj hk hj (hstop'.trans hstop.symm)
      omega
  · have hlt := h.resolve_right hadj
    rw [T.place_of_not_adjoins hi fun r hr hstop => hadj ⟨r, hr, hstop⟩]
    exact ppn_page_of_own hi hpos hlt fun k hk _ _ hstop => hadj ⟨_, List.getElem_mem hk, hstop⟩

theorem ppn_page_pos {i q : Nat} (hi : i < T.regions.length) (hq : q < T.regions[i].pages) (hq0 : 0 < q)
    (hlt : T.regions[i].stop < 2 ^ 32) :
    physicAddrToPpnFrom (T.regions[i].page q) T.regions 0 = ((T.base i + q : Nat) : Int) :=
  ppn_page_of_own hi hq hlt fun _ _ _ h _ => absurd h (Nat.pos_iff_ne_zero.1 hq0)

theorem exists_page {a : Nat} (h : T.Has a) :
    ∃ i, ∃ hi : i < T.regions.length, ∃ q < T.regions[i].pages, maskOffset a = T.regions[i].page q := by
  obtain ⟨r, hr, h1, h2⟩ := h
  obtain ⟨i, hi, rfl⟩ := List.mem_iff_getElem.1 hr
  obtain ⟨c, hc⟩ := (T.regular_getElem hi).aligned.1
  have hstop := (T.regular_getElem hi).stop_eq
  refine ⟨i, hi, (a - T.regions[i].physicaddr) / 4096, by omega, ?_⟩
  rw [maskOffset_eq, RamDescriptor.page]
  omega

theorem has_page {i q : Nat} (hi : i < T.regions.length) (hq : q < T.regions[i].pages) :
    T.Has (T.regions[i].page q) := by
  have hpage := (T.regular_getElem hi).page_lt hq
  exact ⟨_, List.getElem_mem hi, Nat.le_add_right _ _, Nat.lt_of_lt_of_le (Nat.lt_add_of_pos_right (by decide)) hpage⟩

theorem maskOffset_page {i : Nat} (hi : i < T.regions.length) (q : Nat) :
    maskOffset (T.regions[i].page q) = T.regions[i].page q :=
  maskOffset_of_dvd ((T.regular_getElem hi).page_dvd q)

theorem page_inj {i j q r : Nat} (hi : i < T.regions.length) (hj : j < T.regions.length) (hq : q < T.regions[i].pages)
    (hr : r < T.regions[j].pages) (h : T.regions[i].page q = T.regions[j].page r) : i = j ∧ q = r := by
  by_cases hij : i = j
  · subst hij
    rw [RamDescriptor.page, RamDescriptor.page] at h
    exact ⟨rfl, by omega⟩
  · exact absurd h ((T.regular_getElem hi).page_ne (T.regular_getElem hj) (T.apart_getElem hi hj hij) hq hr)

/-! ## The number of an address -/

/-- The number of the page of an address.  Inside a region it is the page's own, counted over the table, but for the
region's first page that of the place it takes; outside every region it is the one after the region that ends at the
page, if there is one. -/
def firstNumber (T : RamTable) (a : Nat) : Option Nat :=
  match T.regions.findFinIdx? fun r => decide (r.physicaddr ≤ a ∧ a < r.stop) with
  | some ⟨i, hi⟩ =>
    some (if a / 4096 * 4096 = T.regions[i].physicaddr then T.base (T.place ⟨i, hi⟩)
      else T.base i + (a - T.regions[i].physicaddr) / 4096)
  | none         => (T.regions.findFinIdx? fun r => r.stop == a / 4096 * 4096).map fun j => T.base (j.1 + 1)

theorem physicAddrToPpn_of_outside {a : Nat} (hout : ¬ T.Has a) (hnone : ∀ r ∈ T.regions, r.stop ≠ a / 4096 * 4096) :
    physicAddrToPpn T.regions a = -1 := by
  refine physicAddrToPpnFrom_none T.regular fun r hr hans => ?_
  rw [maskOffset_eq] at hans
  rcases Nat.lt_or_eq_of_le hans.2.1 with hin | hends
  · obtain ⟨c, hc⟩ := (T.regular r hr).aligned.1
    have hend := (T.regular r hr).stop_eq
    exact hout ⟨r, hr, Nat.le_trans hans.1 (Nat.div_mul_le_self a 4096), by omega⟩
  · exact hnone r hr hends.symm

section

variable (hT : T.BelowTop)

include hT

/-- The place whose first number the code counts from. -/
theorem physicAddrToPpn_of_inside {i a : Nat} (hi : i < T.regions.length) (h1 : T.regions[i].physicaddr ≤ a)
    (h2 : a < T.regions[i].stop) :
    physicAddrToPpn T.regions a =
      if a / 4096 * 4096 = T.regions[i].physicaddr then (T.base (T.place ⟨i, hi⟩) : Int)
      else ((T.base i + (a - T.regions[i].physicaddr) / 4096 : Nat) : Int) := by
  have hr := regular_getElem hi
  obtain ⟨b, hb⟩ : 4096 ∣ T.regions[i].physicaddr := hr.aligned.1
  have hstop : T.regions[i].stop = T.regions[i].physicaddr + T.regions[i].pages * 4096 := hr.stop_eq
  have hlt : T.regions[i].stop < 2 ^ 32 := hT _ (List.getElem_mem hi)
  have hpage : maskOffset a = T.regions[i].page ((a - T.regions[i].physicaddr) / 4096) := by
    rw [maskOffset_eq, RamDescriptor.page]
    omega
  rw [physicAddrToPpn, hpage]
  by_cases hfirst : a / 4096 * 4096 = T.regions[i].physicaddr
  · have hq : (a - T.regions[i].physicaddr) / 4096 = 0 := by omega
    rw [if_pos hfirst, hq]
    exact ppn_page_zero hi (Or.inl hlt)
  · rw [if_neg hfirst]
    exact ppn_page_pos hi (show (a - T.regions[i].physicaddr) / 4096 < T.regions[i].pages by omega) (by omega) hlt

theorem physicAddrToPpn_of_stop {j : Nat} (hj : j < T.regions.length) {a : Nat} (hout : ¬ T.Has a)
    (hstop : T.regions[j].stop = a / 4096 * 4096) : physicAddrToPpn T.regions a = (T.base (j + 1) : Int) := by
  have hend := (regular_getElem hj).stop_eq
  have hlt := hT _ (List.getElem_mem hj)
  have hans : T.regions[j].Answers (a / 4096 * 4096) := ⟨by omega, Nat.le_of_eq hstop.symm, hlt⟩
  rw [physicAddrToPpn, maskOffset_eq, physicAddrToPpnFrom_at hj hans, ← hstop, hend, Nat.add_sub_cancel_left,
    Nat.mul_div_cancel _ (by decide), base_succ hj]
  intro k hk hkj hans'
  -- a region that has the page has the address, and no other region ends at the page
  rcases Nat.lt_or_eq_of_le hans'.2.1 with hin | hends
  · have hk' := regular_getElem hk
    obtain ⟨c, hc⟩ := hk'.aligned.1
    have hend' := hk'.stop_eq
    exact hout ⟨_, List.getElem_mem hk, Nat.le_trans hans'.1 (Nat.div_mul_le_self a 4096), by omega⟩
  · exact Nat.ne_of_lt hkj (T.stop_inj hk hj (hends.symm.trans hstop.symm))

/-- **The number the loop finds is that of the layout.** -/
theorem physicAddrToPpn_eq (a : Nat) :
    physicAddrToPpn T.regions a = (T.firstNumber a).elim (-1) fun number => (number : Int) := by
  rw [firstNumber]
  cases hin : T.regions.findFinIdx? fun r => decide (r.physicaddr ≤ a ∧ a < r.stop) with
  | some i =>
    obtain ⟨hi, -⟩ := List.findFinIdx?_eq_some_iff.1 hin
    obtain ⟨h1, h2⟩ := of_decide_eq_true hi
    rw [physicAddrToPpn_of_inside hT i.2 h1 h2]
    simp only [Option.elim_some, Nat.cast_ite]
  | none =>
    have hout : ¬ T.Has a := by
      rintro ⟨r, hr, h1, h2⟩
      exact List.findFinIdx?_eq_none_iff.1 hin r hr (decide_eq_true ⟨h1, h2⟩)
    cases hends : T.regions.findFinIdx? fun r => r.stop == a / 4096 * 4096 with
    | some j =>
      obtain ⟨hj, -⟩ := List.findFinIdx?_eq_some_iff.1 hends
      exact physicAddrToPpn_of_stop hT j.2 hout (beq_iff_eq.1 hj)
    | none =>
      exact physicAddrToPpn_of_outside hout fun r hr hstop =>
        List.findFinIdx?_eq_none_iff.1 hends r hr (beq_iff_eq.2 hstop)

end

theorem firstNumber_le {a number : Nat} (h : T.firstNumber a = some number) : number ≤ totalPages T.regions := by
  have hbase : ∀ {i : Nat}, i ≤ T.regions.length → T.base i ≤ totalPages T.regions := fun hi => by
    rw [← base_length]
    exact Blocks.start_le hi (Nat.le_refl _)
  rw [firstNumber] at h
  split at h
  case h_1 i hi hin =>
    obtain ⟨hinside, -⟩ := List.findFinIdx?_eq_some_iff.1 hin
    have hboth : T.regions[i].physicaddr ≤ a ∧ a < T.regions[i].stop := of_decide_eq_true hinside
    obtain ⟨h1, h2⟩ := hboth
    have hend : T.regions[i].stop = T.regions[i].physicaddr + T.regions[i].pages * 4096 :=
      (regular_getElem hi).stop_eq
    cases h
    split
    · exact hbase (T.place_le ⟨i, hi⟩)
    · exact Nat.le_of_lt (base_add_lt hi (show (a - T.regions[i].physicaddr) / 4096 < T.regions[i].pages by omega))
  case h_2 =>
    obtain ⟨j, -, rfl⟩ := Option.map_eq_some_iff.1 h
    exact hbase j.2

end RamTable

end RiscvOs

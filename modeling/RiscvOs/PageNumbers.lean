import RiscvOs.Regions
/-!
# The two page numberings of `mem/phys_alloc.c`

`physic_addr_to_ppn` counts pages over the whole table; `find_physical_addr_of_page` compares the number with one region
after another and never subtracts the pages it passes.  A page is reached by the second scan when no earlier region has
a page of the same index, and then by that index alone (`findPhysicalAddrOfPage_eq_page_iff`).
-/
namespace RiscvOs

/-- The loop of `physic_addr_to_ppn` at the rest of the table, `counter` pages in. -/
def physicAddrToPpnFrom (pagePtr : Nat) : List RamDescriptor → (counter : Nat) → Int
  | [], _           => -1
  | r :: t, counter =>
    if pagePtr ≥ r.physicaddr ∧ pagePtr ≤ wrap32 (r.physicaddr + r.spaceSize) then
      let diff := sub32 pagePtr r.physicaddr
      toInt32 (counter + (diff >>> pageOffsetBits))
    else physicAddrToPpnFrom pagePtr t (wrap32 (counter + r.spaceSize / pageSize))

def maskOffset (page : Nat) : Nat := (page >>> pageOffsetBits) <<< pageOffsetBits

def physicAddrToPpn (t : List RamDescriptor) (page : Nat) : Int := physicAddrToPpnFrom (maskOffset page) t 0

/-- `find_physical_addr_of_page`; `NULL` is address 0. -/
def findPhysicalAddrOfPage : List RamDescriptor → (ppn : Nat) → Nat
  | [], _     => 0
  | r :: t, ppn =>
    let pagesInThisReg := r.spaceSize >>> pageOffsetBits
    if ppn < pagesInThisReg then wrap32 (r.physicaddr + wrap32 (ppn <<< pageOffsetBits))
    else findPhysicalAddrOfPage t ppn

/-! ## From numbers to addresses -/

theorem findPhysicalAddrOfPage_cons {r : RamDescriptor} (hr : r.Regular) (t : List RamDescriptor) (k : Nat) :
    findPhysicalAddrOfPage (r :: t) k = if k < r.pages then r.page k else findPhysicalAddrOfPage t k := by
  have hp : r.spaceSize >>> pageOffsetBits = r.pages := Nat.shiftRight_eq_div_pow _ _
  simp only [findPhysicalAddrOfPage, hp]
  by_cases hk : k < r.pages
  · have := hr.page_lt hk
    have := hr.stop_le
    simp only [if_pos hk, RamDescriptor.page, wrap32, pageOffsetBits] at *
    omega
  · rw [if_neg hk, if_neg hk]

/-- **Every number is a page of the first region long enough to have it**, or `NULL` when none is. -/
theorem findPhysicalAddrOfPage_cases : ∀ {t : List RamDescriptor}, (∀ r ∈ t, r.Regular) → ∀ k,
    (findPhysicalAddrOfPage t k = 0 ∧ ∀ r ∈ t, r.pages ≤ k) ∨
    ∃ pre r post, t = pre ++ r :: post ∧ (∀ x ∈ pre, x.pages ≤ k) ∧ k < r.pages ∧ findPhysicalAddrOfPage t k = r.page k
  | [], _, _ => Or.inl ⟨rfl, by simp⟩
  | r :: t, h, k => by
    rw [findPhysicalAddrOfPage_cons (h r (by simp))]
    by_cases hk : k < r.pages
    · exact Or.inr ⟨[], r, t, rfl, by simp, hk, if_pos hk⟩
    · rw [if_neg hk]
      rcases findPhysicalAddrOfPage_cases (fun x hx => h x (List.mem_cons_of_mem _ hx)) k with ⟨h0, hall⟩ |
        ⟨pre, x, post, ht, hpre, hx, he⟩
      · exact Or.inl ⟨h0, by simpa using ⟨Nat.le_of_not_lt hk, hall⟩⟩
      · exact Or.inr ⟨r :: pre, x, post, by rw [ht]; rfl, by simpa using ⟨Nat.le_of_not_lt hk, hpre⟩, hx, he⟩

theorem findPhysicalAddrOfPage_mem {t : List RamDescriptor} (h : ∀ r ∈ t, r.Regular) {k : Nat}
    (hk : findPhysicalAddrOfPage t k ≠ 0) : ∃ r ∈ t, k < r.pages ∧ findPhysicalAddrOfPage t k = r.page k := by
  rcases findPhysicalAddrOfPage_cases h k with ⟨h0, -⟩ | ⟨pre, r, post, ht, -, hr, he⟩
  · exact absurd h0 hk
  · exact ⟨r, by simp [ht], hr, he⟩

theorem RamDescriptor.Regular.page_ne {a b : RamDescriptor} (ha : a.Regular) (hb : b.Regular)
    (hd : Disjoint a.span b.span) {i j : Nat} (hi : i < a.pages) (hj : j < b.pages) : a.page i ≠ b.page j := by
  have h1 := ha.page_lt hi
  have h2 := hb.page_lt hj
  have h3 := Spans.disjoint_iff.1 hd
  simp only [RamDescriptor.page] at *
  omega

/-- **A page is found under its index in its region, and only when no earlier region has a page of that index.** -/
theorem findPhysicalAddrOfPage_eq_page_iff {r : RamDescriptor} {q : Nat} (hq : q < r.pages) (h0 : r.page q ≠ 0) :
    ∀ {pre post t : List RamDescriptor}, t = pre ++ r :: post → (∀ x ∈ t, x.Regular) →
      t.Pairwise (fun a b => Disjoint a.span b.span) → ∀ k,
      (findPhysicalAddrOfPage t k = r.page q ↔ k = q ∧ ∀ x ∈ pre, x.pages ≤ k)
  | [], post, _, rfl, hreg, hd, k => by
    have hr : r.Regular := hreg r (by simp)
    rw [List.nil_append, findPhysicalAddrOfPage_cons hr]
    by_cases hk : k < r.pages
    · rw [if_pos hk]
      simp only [RamDescriptor.page, List.not_mem_nil, false_implies, implies_true, and_true]
      omega
    · rw [if_neg hk]
      constructor
      · intro he
        obtain ⟨x, hx, hkx, hex⟩ := findPhysicalAddrOfPage_mem (fun x hx => hreg x (by simp [hx])) (he ▸ h0)
        have hxr := RamTable.apart hd rfl x (by simpa using hx)
        exact absurd (he.symm.trans hex) (hr.page_ne (hreg x (by simp [hx])) hxr hq hkx)
      · rintro ⟨rfl, -⟩
        exact absurd hq hk
  | y :: pre, post, _, rfl, hreg, hd, k => by
    have hy : y.Regular := hreg y (by simp)
    rw [List.cons_append, findPhysicalAddrOfPage_cons hy]
    by_cases hk : k < y.pages
    · rw [if_pos hk]
      have hyr : Disjoint y.span r.span := (List.pairwise_cons.1 hd).1 r (by simp)
      constructor
      · intro he
        exact absurd he (hy.page_ne (hreg r (by simp)) hyr hk hq)
      · rintro ⟨rfl, hpre⟩
        have := hpre y (by simp)
        omega
    · rw [if_neg hk, findPhysicalAddrOfPage_eq_page_iff hq h0 rfl (fun x hx => hreg x (List.mem_cons_of_mem _ hx))
        (List.pairwise_cons.1 hd).2 k]
      simp only [List.forall_mem_cons]
      constructor
      · rintro ⟨he, hpre⟩
        exact ⟨he, Nat.le_of_not_lt hk, hpre⟩
      · rintro ⟨he, -, hpre⟩
        exact ⟨he, hpre⟩

/-! ## From addresses to numbers -/

theorem maskOffset_eq (a : Nat) : maskOffset a = a / 4096 * 4096 := by
  rw [maskOffset, Nat.shiftRight_eq_div_pow, Nat.shiftLeft_eq]
  rfl

theorem maskOffset_of_dvd {a : Nat} (h : 4096 ∣ a) : maskOffset a = a := by
  rw [maskOffset_eq, Nat.div_mul_cancel h]

theorem RamDescriptor.wrap32_stop {r : RamDescriptor} (hr : r.stop < 2 ^ 32) :
    wrap32 (r.physicaddr + r.spaceSize) = r.stop := wrap32_of_lt hr

theorem physicAddrToPpnFrom_hit {r : RamDescriptor} (hr : r.stop < 2 ^ 32) (t : List RamDescriptor) {p c : Nat}
    (h1 : r.physicaddr ≤ p) (h2 : p ≤ r.stop) :
    physicAddrToPpnFrom p (r :: t) c = toInt32 (c + (p - r.physicaddr) / 4096) := by
  have hc : p ≥ r.physicaddr ∧ p ≤ wrap32 (r.physicaddr + r.spaceSize) := ⟨h1, by rwa [RamDescriptor.wrap32_stop hr]⟩
  rw [physicAddrToPpnFrom, if_pos hc]
  simp only [sub32_of_le h1 (Nat.lt_of_le_of_lt h2 hr), Nat.shiftRight_eq_div_pow]
  rfl

theorem physicAddrToPpnFrom_miss {r : RamDescriptor} (hr : r.stop < 2 ^ 32) (t : List RamDescriptor) {p c : Nat}
    (h : ¬ (r.physicaddr ≤ p ∧ p ≤ r.stop)) (hc : c + r.pages < 2 ^ 32) :
    physicAddrToPpnFrom p (r :: t) c = physicAddrToPpnFrom p t (c + r.pages) := by
  have hm : ¬ (p ≥ r.physicaddr ∧ p ≤ wrap32 (r.physicaddr + r.spaceSize)) := by
    rwa [RamDescriptor.wrap32_stop hr]
  rw [physicAddrToPpnFrom, if_neg hm]
  exact congrArg (physicAddrToPpnFrom p t) (wrap32_of_lt hc)

/-! ## The round trip -/

theorem findPhysicalAddrOfPage_head {r : RamDescriptor} (hr : r.Regular) (hlt : r.stop < 2 ^ 32)
    (t : List RamDescriptor) {a : Nat} (h1 : r.physicaddr ≤ a) (h2 : a < r.stop) :
    findPhysicalAddrOfPage (r :: t) (toUint32 (physicAddrToPpn (r :: t) a)) = a / 4096 * 4096 := by
  obtain ⟨b, hb⟩ := hr.aligned.1
  have hs := hr.stop_eq
  have hm : r.physicaddr ≤ maskOffset a ∧ maskOffset a ≤ r.stop := by rw [maskOffset_eq]; omega
  have hn : (maskOffset a - r.physicaddr) / 4096 < r.pages := by rw [maskOffset_eq]; omega
  rw [physicAddrToPpn, physicAddrToPpnFrom_hit hlt t hm.1 hm.2, Nat.zero_add, toUint32_toInt32 (by omega),
    findPhysicalAddrOfPage_cons hr, if_pos hn, maskOffset_eq, RamDescriptor.page]
  omega

theorem physicAddrToPpn_head {r : RamDescriptor} (hr : r.Regular) (hlt : r.stop < 2 ^ 32) (t : List RamDescriptor)
    {k : Nat} (hk : k < r.pages) : physicAddrToPpn (r :: t) (findPhysicalAddrOfPage (r :: t) k) = k := by
  obtain ⟨b, hb⟩ := hr.aligned.1
  have hp := hr.page_lt hk
  simp only [RamDescriptor.page] at hp
  rw [findPhysicalAddrOfPage_cons hr, if_pos hk, physicAddrToPpn, maskOffset_eq, RamDescriptor.page,
    physicAddrToPpnFrom_hit hlt t (by omega) (by omega), Nat.zero_add, toInt32_of_lt (by omega)]
  omega

/-- The numbers and the addresses of a table agree, both ways round. -/
def RoundTrip (t : List RamDescriptor) : Prop :=
  (∀ ppn < RamTable.totalPages t, physicAddrToPpn t (findPhysicalAddrOfPage t ppn) = ppn) ∧
  ∀ r ∈ t, ∀ a, r.physicaddr ≤ a → a < r.stop →
    findPhysicalAddrOfPage t (toUint32 (physicAddrToPpn t a)) = a / 4096 * 4096

section TwoRegions

variable {r₀ r₁ : RamDescriptor} {rest : List RamDescriptor}

/-- The first page of the second region is numbered by the pages of the first, whether or not the regions touch. -/
theorem physicAddrToPpn_second (h₀ : r₀.Regular) (h₁ : r₁.Regular) (hlt₀ : r₀.stop < 2 ^ 32) (hlt₁ : r₁.stop < 2 ^ 32)
    (hd : Disjoint r₀.span r₁.span) : physicAddrToPpn (r₀ :: r₁ :: rest) r₁.physicaddr = r₀.pages := by
  obtain ⟨b, hb⟩ := h₁.aligned.1
  have hsep := Spans.disjoint_iff.1 hd
  have hs₀ := h₀.stop_eq
  have hs₁ := h₁.stop_eq
  have hp₁ := h₁.pages_pos
  rw [physicAddrToPpn, maskOffset_of_dvd h₁.aligned.1]
  by_cases hhit : r₀.physicaddr ≤ r₁.physicaddr ∧ r₁.physicaddr ≤ r₀.stop
  · rw [physicAddrToPpnFrom_hit hlt₀ _ hhit.1 hhit.2, toInt32_of_lt (by omega)]
    omega
  · rw [physicAddrToPpnFrom_miss hlt₀ _ hhit (by omega), physicAddrToPpnFrom_hit hlt₁ _ (Nat.le_refl _) (by omega),
      toInt32_of_lt (by omega)]
    omega

theorem physicAddrToPpn_third {r₂ : RamDescriptor} (h₀ : r₀.Regular) (h₁ : r₁.Regular) (h₂ : r₂.Regular)
    (hlt₀ : r₀.stop < 2 ^ 32) (hlt₁ : r₁.stop < 2 ^ 32) (hlt₂ : r₂.stop < 2 ^ 32)
    (hd : (r₀ :: r₁ :: r₂ :: rest).Pairwise (fun a b => Disjoint a.span b.span)) :
    r₀.pages ≤ toUint32 (physicAddrToPpn (r₀ :: r₁ :: r₂ :: rest) r₂.physicaddr) := by
  obtain ⟨b, hb⟩ := h₂.aligned.1
  simp only [List.pairwise_cons, List.mem_cons] at hd
  have hsep₀ := Spans.disjoint_iff.1 (hd.1 r₂ (by simp))
  have hsep₁ := Spans.disjoint_iff.1 (hd.2.1 r₂ (by simp))
  have hs₀ := h₀.stop_eq
  have hs₁ := h₁.stop_eq
  have hs₂ := h₂.stop_eq
  have hp₂ := h₂.pages_pos
  rw [physicAddrToPpn, maskOffset_of_dvd h₂.aligned.1]
  by_cases hhit₀ : r₀.physicaddr ≤ r₂.physicaddr ∧ r₂.physicaddr ≤ r₀.stop
  · rw [physicAddrToPpnFrom_hit hlt₀ _ hhit₀.1 hhit₀.2, toUint32_toInt32 (by omega)]
    omega
  · rw [physicAddrToPpnFrom_miss hlt₀ _ hhit₀ (by omega)]
    by_cases hhit₁ : r₁.physicaddr ≤ r₂.physicaddr ∧ r₂.physicaddr ≤ r₁.stop
    · rw [physicAddrToPpnFrom_hit hlt₁ _ hhit₁.1 hhit₁.2, toUint32_toInt32 (by omega)]
      omega
    · rw [physicAddrToPpnFrom_miss hlt₁ _ hhit₁ (by omega), physicAddrToPpnFrom_hit hlt₂ _ (Nat.le_refl _) (by omega),
        toUint32_toInt32 (by omega)]
      omega

theorem findPhysicalAddrOfPage_second (hreg : ∀ r ∈ r₀ :: r₁ :: rest, r.Regular)
    (hd : (r₀ :: r₁ :: rest).Pairwise (fun a b => Disjoint a.span b.span))
    (he : findPhysicalAddrOfPage (r₀ :: r₁ :: rest) r₀.pages = r₁.physicaddr) :
    r₁.physicaddr = 0 ∧ ∀ x ∈ r₁ :: rest, x.pages ≤ r₀.pages := by
  have hreg' : ∀ x ∈ r₁ :: rest, x.Regular := fun x hx => hreg x (List.mem_cons_of_mem _ hx)
  have h₁ : r₁.Regular := hreg' r₁ (by simp)
  rw [findPhysicalAddrOfPage_cons (hreg r₀ (by simp)), if_neg (Nat.lt_irrefl _)] at he
  rcases findPhysicalAddrOfPage_cases hreg' r₀.pages with ⟨hz, hall⟩ | ⟨pre, x, post, ht, -, hx, hex⟩
  · exact ⟨he.symm.trans hz, hall⟩
  · exfalso
    have hpos : 0 < r₀.pages := (hreg r₀ (by simp)).pages_pos
    cases pre with
    | nil =>
      obtain ⟨rfl, rfl⟩ : r₁ = x ∧ rest = post := by simpa using ht
      rw [hex, RamDescriptor.page] at he
      omega
    | cons y pre =>
      obtain ⟨rfl, rfl⟩ : r₁ = y ∧ rest = pre ++ x :: post := by simpa using ht
      have hdx : Disjoint r₁.span x.span := (List.pairwise_cons.1 (List.pairwise_cons.1 hd).2).1 x (by simp)
      refine h₁.page_ne (hreg' x (by simp)) hdx h₁.pages_pos hx ?_
      rw [← hex, he, RamDescriptor.page, Nat.zero_mul, Nat.add_zero]

section RoundTrip

variable (hreg : ∀ r ∈ r₀ :: r₁ :: rest, r.Regular) (hlt : ∀ r ∈ r₀ :: r₁ :: rest, r.stop < 2 ^ 32)
  (hd : (r₀ :: r₁ :: rest).Pairwise (fun a b => Disjoint a.span b.span)) (h : RoundTrip (r₀ :: r₁ :: rest))

include hreg hlt hd h

theorem RoundTrip.second_null : r₁.physicaddr = 0 ∧ ∀ x ∈ r₁ :: rest, x.pages ≤ r₀.pages := by
  have h₀ : r₀.Regular := hreg r₀ (by simp)
  have h₁ : r₁.Regular := hreg r₁ (by simp)
  have hsize := h₀.size_lt
  have hpages := h₀.spaceSize_eq
  have hnum : physicAddrToPpn (r₀ :: r₁ :: rest) r₁.physicaddr = r₀.pages :=
    physicAddrToPpn_second h₀ h₁ (hlt r₀ (by simp)) (hlt r₁ (by simp)) ((List.pairwise_cons.1 hd).1 r₁ (by simp))
  have hback := h.2 r₁ (by simp) r₁.physicaddr (Nat.le_refl _) (Nat.lt_add_of_pos_right h₁.nonempty)
  rw [hnum, toUint32_natCast (by omega), Nat.div_mul_cancel h₁.aligned.1] at hback
  exact findPhysicalAddrOfPage_second hreg hd hback

/-- No number from the pages of the first region on leads anywhere. -/
theorem RoundTrip.null_from {k : Nat} (hk : r₀.pages ≤ k) : findPhysicalAddrOfPage (r₀ :: r₁ :: rest) k = 0 := by
  obtain ⟨-, hall⟩ := h.second_null hreg hlt hd
  rcases findPhysicalAddrOfPage_cases hreg k with ⟨h0, -⟩ | ⟨pre, x, post, ht, -, hx, -⟩
  · exact h0
  · have hmem : x ∈ r₀ :: r₁ :: rest := by simp [ht]
    rcases List.mem_cons.1 hmem with rfl | hmem
    · exact absurd hx (Nat.not_lt.2 hk)
    · exact absurd hx (Nat.not_lt.2 (Nat.le_trans (hall x hmem) hk))

theorem RoundTrip.rest_eq_nil : rest = [] := by
  cases rest with
  | nil => rfl
  | cons r₂ rest =>
    have h₁ : r₁.Regular := hreg r₁ (by simp)
    have h₂ : r₂.Regular := hreg r₂ (by simp)
    have hnum := physicAddrToPpn_third (hreg r₀ (by simp)) h₁ h₂ (hlt r₀ (by simp)) (hlt r₁ (by simp))
      (hlt r₂ (by simp)) hd
    have hback := h.2 r₂ (by simp) r₂.physicaddr (Nat.le_refl _) (Nat.lt_add_of_pos_right h₂.nonempty)
    rw [h.null_from hreg hlt hd hnum, Nat.div_mul_cancel h₂.aligned.1] at hback
    have hsep := Spans.disjoint_iff.1 ((List.pairwise_cons.1 (List.pairwise_cons.1 hd).2).1 r₂ (by simp))
    have hz := (h.second_null hreg hlt hd).1
    have hne₁ := h₁.nonempty
    have hne₂ := h₂.nonempty
    simp only [RamDescriptor.stop] at hsep
    omega

theorem RoundTrip.second_pages : r₁.pages = 1 := by
  have h₀ : r₀.Regular := hreg r₀ (by simp)
  have h₁ : r₁.Regular := hreg r₁ (by simp)
  have hz := (h.second_null hreg hlt hd).1
  have hp₁ := h₁.pages_pos
  have hs₁ := h₁.stop_eq
  by_contra hne
  have hsep := Spans.disjoint_iff.1 ((List.pairwise_cons.1 hd).1 r₁ (by simp))
  have hne₀ := h₀.nonempty
  have hmiss : ¬ (r₀.physicaddr ≤ 4096 ∧ 4096 ≤ r₀.stop) := by
    simp only [RamDescriptor.stop] at *
    omega
  have hn : r₀.pages < 2 ^ 30 := by
    have := h₀.spaceSize_eq
    have := h₀.size_lt
    omega
  -- the second page of the second region has a number past the first region's
  have hback := h.2 r₁ (by simp) 4096 (by omega) (by omega)
  rw [physicAddrToPpn, maskOffset_of_dvd (Nat.dvd_refl _),
    physicAddrToPpnFrom_miss (hlt r₀ (by simp)) _ hmiss (by omega),
    physicAddrToPpnFrom_hit (hlt r₁ (by simp)) _ (by omega) (by omega), hz, toUint32_toInt32 (by omega),
    h.null_from hreg hlt hd (by omega)] at hback
  omega

theorem RoundTrip.eq_page_zero : r₁ = ⟨0, 4096⟩ ∧ rest = [] := by
  refine ⟨?_, h.rest_eq_nil hreg hlt hd⟩
  have hsize := (hreg r₁ (by simp)).spaceSize_eq
  rw [h.second_pages hreg hlt hd] at hsize
  cases r₁
  rw [RamDescriptor.mk.injEq]
  exact ⟨(h.second_null hreg hlt hd).1, hsize⟩

end RoundTrip

/-- The one page at address 0, as a second region, comes back as the `NULL` that stands for no page. -/
theorem roundTrip_two (h₀ : r₀.Regular) (hlt : r₀.stop < 2 ^ 32)
    (hd : Disjoint r₀.span (⟨0, 4096⟩ : RamDescriptor).span) : RoundTrip [r₀, ⟨0, 4096⟩] := by
  have h₁ : (⟨0, 4096⟩ : RamDescriptor).Regular := ⟨by decide, by decide, by decide, by decide⟩
  have hnum : physicAddrToPpn [r₀, ⟨0, 4096⟩] 0 = r₀.pages := physicAddrToPpn_second h₀ h₁ hlt (by decide) hd
  have hpos := h₀.pages_pos
  have hnull : findPhysicalAddrOfPage [r₀, ⟨0, 4096⟩] r₀.pages = 0 := by
    have hone : (⟨0, 4096⟩ : RamDescriptor).pages = 1 := rfl
    rw [findPhysicalAddrOfPage_cons h₀, if_neg (Nat.lt_irrefl _), findPhysicalAddrOfPage_cons h₁,
      if_neg (by rw [hone]; omega), findPhysicalAddrOfPage]
  constructor
  · intro ppn hppn
    have htotal : RamTable.totalPages [r₀, ⟨0, 4096⟩] = r₀.pages + 1 := by
      simp [RamTable.totalPages, RamDescriptor.pages]
    rcases Nat.lt_or_ge ppn r₀.pages with hlt' | hge
    · exact physicAddrToPpn_head h₀ hlt _ hlt'
    · obtain rfl : ppn = r₀.pages := by omega
      rw [hnull, hnum]
  · intro r hr a h1 h2
    rcases List.mem_cons.1 hr with rfl | hr
    · exact findPhysicalAddrOfPage_head h₀ hlt _ h1 h2
    · obtain rfl : r = ⟨0, 4096⟩ := by simpa using hr
      have ha : maskOffset a = maskOffset 0 := by
        simp only [RamDescriptor.stop] at h2
        rw [maskOffset_eq, maskOffset_eq]
        omega
      have hn : r₀.pages < 2 ^ 31 := by
        have := h₀.spaceSize_eq
        have := h₀.size_lt
        omega
      have hsame : physicAddrToPpn [r₀, ⟨0, 4096⟩] a = toInt32 r₀.pages := by
        rw [toInt32_of_lt hn, ← hnum, physicAddrToPpn, physicAddrToPpn, ha]
      rw [hsame, toUint32_toInt32 (by omega), hnull, ← maskOffset_eq, ha, maskOffset_eq]

end TwoRegions

/-- **The numberings are inverse to each other exactly on tables of one region**, and on the tables whose second and
last region is the single page at address 0. -/
theorem roundTrip_iff (T : RamTable) (hT : T.BelowTop) :
    RoundTrip T.regions ↔ T.regions.length ≤ 1 ∨ ∃ r, T.regions = [r, ⟨0, 4096⟩] := by
  obtain ⟨t, hreg, hd⟩ := T
  match t, hreg, hd, hT with
  | [], _, _, _ =>
    exact iff_of_true ⟨fun ppn h => absurd h (Nat.not_lt_zero _), fun r hr => by cases hr⟩ (Or.inl (by simp))
  | [r], hreg, _, hT =>
    have hr := hreg r (by simp)
    have hlt := hT r (by simp)
    refine iff_of_true ⟨fun ppn hppn => ?_, fun x hx a h1 h2 => ?_⟩ (Or.inl (by simp))
    · exact physicAddrToPpn_head hr hlt [] (by simpa [RamTable.totalPages] using hppn)
    · obtain rfl : x = r := by simpa using hx
      exact findPhysicalAddrOfPage_head hr hlt [] h1 h2
  | r₀ :: r₁ :: rest, hreg, hd, hT =>
    constructor
    · intro h
      obtain ⟨rfl, rfl⟩ := h.eq_page_zero hreg hT hd
      exact Or.inr ⟨r₀, rfl⟩
    · rintro (h | ⟨r, h⟩)
      · simp at h
      · obtain ⟨rfl, rfl, rfl⟩ : r₀ = r ∧ r₁ = ⟨0, 4096⟩ ∧ rest = [] := by simpa using h
        exact roundTrip_two (hreg r₀ (by simp)) (hT r₀ (by simp)) ((List.pairwise_cons.1 hd).1 _ (by simp))

/-- The two regions of the comment on `find_physical_addr_of_page`. -/
def commentRegions : RamTable where
  regions := [⟨0x10000, 0x10000⟩, ⟨0x35000, 0x10000⟩]
  regular := by decide
  disjoint := by decide

theorem commentRegions_belowTop : commentRegions.BelowTop := by decide

theorem roundTrip_iff_commentRegions :
    RoundTrip commentRegions.regions ↔
      commentRegions.regions.length ≤ 1 ∨ ∃ r, commentRegions.regions = [r, ⟨0, 4096⟩] :=
  roundTrip_iff commentRegions commentRegions_belowTop

/-- The page at 0x35000 has number 16, and number 16 comes back as `NULL`. -/
theorem not_roundTrip_commentRegions :
    commentRegions.BelowTop ∧ physicAddrToPpn commentRegions.regions 0x35000 = 16 ∧
      findPhysicalAddrOfPage commentRegions.regions 16 = 0 ∧ ¬ RoundTrip commentRegions.regions := by
  refine ⟨commentRegions_belowTop, by decide, by decide, fun h => ?_⟩
  have hback := h.2 ⟨0x35000, 0x10000⟩ (by decide) 0x35000 (by decide) (by decide)
  exact absurd hback (by decide)

end RiscvOs

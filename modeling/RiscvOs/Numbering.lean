import RiscvOs.Reservations
/-!
# Which tables `physic_addr_to_ppn` numbers exactly, and which bits `pmm_borrow_pages` sets

A page at the start of a region can get the number of another place in the table (`RamTable.ppn_page_zero`), and every
address just past a region gets one: an exact numbering leaves no gap between regions and no place taken twice.

The first bit that is set for a range is that of the page it starts in, by this numbering; how many follow is decided by
the length alone.  A range that starts inside a page can so end in a page that is not marked.
-/
namespace RiscvOs

/-! ## An exact numbering -/

/-- What `physic_addr_to_ppn` is for: `-1` outside RAM, and on RAM one number for each page, from 0 up. -/
structure NumbersRam (T : RamTable) : Prop where
  outside : ∀ a < 2 ^ 32, ¬ T.Has a → physicAddrToPpn T.regions a = -1
  constant : ∀ a b, T.Has a → T.Has b → a / 4096 = b / 4096 → physicAddrToPpn T.regions a = physicAddrToPpn T.regions b
  distinct : ∀ a b, T.Has a → T.Has b → a / 4096 ≠ b / 4096 → physicAddrToPpn T.regions a ≠ physicAddrToPpn T.regions b
  values : ∀ v : Int, (∃ a, T.Has a ∧ physicAddrToPpn T.regions a = v) ↔ 0 ≤ v ∧ v < RamTable.totalPages T.regions

/-- The regions fill the end of the address space without a gap, its last page is a region by itself and not the only
one, and each place in the table is taken by one region. -/
structure InPlace (T : RamTable) : Prop where
  noGap : ∀ r ∈ T.regions, r.stop = 2 ^ 32 ∨ ∃ x ∈ T.regions, x.physicaddr = r.stop
  lastPage : ∀ r ∈ T.regions, r.stop = 2 ^ 32 → r.pages = 1 ∧ ∃ x ∈ T.regions, x.stop = r.physicaddr
  place_lt : ∀ i, T.place i < T.regions.length
  place_inj : Function.Injective T.place

section Exact

variable {T : RamTable}

theorem exists_answers_of_nonneg {p : Nat} (h : 0 ≤ physicAddrToPpnFrom p T.regions 0) :
    ∃ k, ∃ hk : k < T.regions.length, T.regions[k].Answers p := by
  by_contra hnone
  push Not at hnone
  rw [physicAddrToPpnFrom_none T.regular fun r hr => ?_] at h
  · exact absurd h (by decide)
  · obtain ⟨k, hk, rfl⟩ := List.mem_iff_getElem.1 hr
    exact hnone k hk

theorem nonneg_of_answers {r : RamDescriptor} {p : Nat} (hr : r ∈ T.regions) (h : r.Answers p) :
    0 ≤ physicAddrToPpnFrom p T.regions 0 := by
  have hex : ∃ k, ∃ hk : k < T.regions.length, T.regions[k].Answers p := by
    obtain ⟨k, hk, rfl⟩ := List.mem_iff_getElem.1 hr
    exact ⟨k, hk, h⟩
  classical
  obtain ⟨hk, hans⟩ := Nat.find_spec hex
  rw [T.physicAddrToPpnFrom_at hk hans fun j hj hlt hans' => Nat.find_min hex hlt ⟨hj, hans'⟩]
  exact Int.natCast_nonneg _

namespace NumbersRam

variable (h : NumbersRam T)

include h

theorem ppn_nonneg {a : Nat} (ha : T.Has a) : 0 ≤ physicAddrToPpn T.regions a := ((h.values _).1 ⟨a, ha, rfl⟩).1

theorem noGap {r : RamDescriptor} (hr : r ∈ T.regions) : r.stop = 2 ^ 32 ∨ ∃ x ∈ T.regions, x.physicaddr = r.stop := by
  have hreg := T.regular r hr
  rcases Nat.lt_or_eq_of_le hreg.stop_le with hlt | htop
  · right
    have hans : r.Answers (maskOffset r.stop) := by
      have hdvd : 4096 ∣ r.stop := (Nat.dvd_add_iff_right hreg.aligned.1).1 hreg.aligned.2
      rw [maskOffset_of_dvd hdvd]
      exact ⟨Nat.le_add_right _ _, Nat.le_refl _, hlt⟩
    have hhas : T.Has r.stop := by
      by_contra hout
      have hnum := h.outside r.stop hlt hout
      rw [physicAddrToPpn] at hnum
      exact absurd (nonneg_of_answers hr hans) (by rw [hnum]; decide)
    obtain ⟨x, hx, h1, h2⟩ := hhas
    refine ⟨x, hx, Nat.le_antisymm h1 ?_⟩
    by_contra hbefore
    obtain ⟨i, hi, rfl⟩ := List.mem_iff_getElem.1 hr
    obtain ⟨j, hj, rfl⟩ := List.mem_iff_getElem.1 hx
    have hne : i ≠ j := by
      rintro rfl
      exact Nat.lt_irrefl _ h2
    have hsep := Spans.disjoint_iff.1 (T.apart_getElem hi hj hne)
    have hpos := hreg.nonempty
    simp only [RamDescriptor.stop] at *
    omega
  · exact Or.inl htop

theorem lastPage {r : RamDescriptor} (hr : r ∈ T.regions) (htop : r.stop = 2 ^ 32) :
    r.pages = 1 ∧ ∃ x ∈ T.regions, x.stop = r.physicaddr := by
  obtain ⟨i, hi, rfl⟩ := List.mem_iff_getElem.1 hr
  have hpos := (T.regular_getElem hi).pages_pos
  have hq : T.regions[i].pages - 1 < T.regions[i].pages := Nat.sub_lt hpos (by decide)
  have hnum := h.ppn_nonneg (T.has_page hi hq)
  rw [physicAddrToPpn, T.maskOffset_page hi] at hnum
  obtain ⟨k, hk, hans⟩ := exists_answers_of_nonneg hnum
  rcases (T.answers_page_iff hi hk hq).1 hans with ⟨-, hlt⟩ | ⟨hq0, hstop⟩
  · omega
  · exact ⟨by omega, _, List.getElem_mem hk, hstop⟩

theorem ppn_first (i : Fin T.regions.length) :
    physicAddrToPpn T.regions (T.regions[i].page 0) = (T.base (T.place i) : Int) := by
  have hor : T.regions[i].stop < 2 ^ 32 ∨ ∃ r ∈ T.regions, r.stop = T.regions[i].physicaddr := by
    rcases Nat.lt_or_eq_of_le (T.regular_getElem i.2).stop_le with hlt | htop
    · exact Or.inl hlt
    · exact Or.inr (h.lastPage (List.getElem_mem i.2) htop).2
  rw [physicAddrToPpn, ← T.ppn_page_zero i.2 hor]
  exact congrArg (fun p => physicAddrToPpnFrom p T.regions 0) (T.maskOffset_page i.2 0)

theorem inPlace : InPlace T := by
  have hhas : ∀ i : Fin T.regions.length, T.Has (T.regions[i].page 0) := fun i =>
    T.has_page i.2 (T.regular_getElem i.2).pages_pos
  refine ⟨fun r hr => h.noGap hr, fun r hr => h.lastPage hr, fun i => ?_, fun i j hij => ?_⟩
  · have hlt := ((h.values _).1 ⟨_, hhas i, rfl⟩).2
    rw [h.ppn_first i, ← T.base_length] at hlt
    refine Nat.lt_of_le_of_ne (T.place_le i) fun hlast => ?_
    rw [hlast] at hlt
    exact absurd hlt (Int.lt_irrefl _)
  · by_contra hne
    refine h.distinct _ _ (hhas i) (hhas j) (fun hpage => hne ?_) (by rw [h.ppn_first i, h.ppn_first j, hij])
    have hdvd : 4096 ∣ T.regions[i].page 0 := (T.regular_getElem i.2).page_dvd 0
    have hdvd' : 4096 ∣ T.regions[j].page 0 := (T.regular_getElem j.2).page_dvd 0
    have hsame : T.regions[i].page 0 = T.regions[j].page 0 := by
      rw [← Nat.div_mul_cancel hdvd, ← Nat.div_mul_cancel hdvd']
      exact congrArg (· * 4096) hpage
    exact Fin.ext (T.page_inj i.2 j.2 (T.regular_getElem i.2).pages_pos (T.regular_getElem j.2).pages_pos hsame).1

end NumbersRam

namespace InPlace

variable (h : InPlace T)

include h

theorem not_answers {a : Nat} (ha : ¬ T.Has a) {r : RamDescriptor} (hr : r ∈ T.regions) :
    ¬ r.Answers (maskOffset a) := by
  rintro ⟨h1, h2, hlt⟩
  have hreg := T.regular r hr
  obtain ⟨b, hb⟩ := hreg.aligned.1
  have hstop := hreg.stop_eq
  rw [maskOffset_eq] at h1 h2
  rcases Nat.lt_or_eq_of_le h2 with h2' | hend
  · exact ha ⟨r, hr, by omega, by omega⟩
  · rcases h.noGap r hr with htop | ⟨x, hx, hbegin⟩
    · omega
    · have hx' := (T.regular x hx).stop_eq
      have hpos := (T.regular x hx).pages_pos
      exact ha ⟨x, hx, by omega, by omega⟩

theorem ppn_first (i : Fin T.regions.length) :
    physicAddrToPpnFrom (T.regions[i].page 0) T.regions 0 = (T.base (T.place i) : Int) := by
  refine T.ppn_page_zero i.2 ?_
  rcases Nat.lt_or_eq_of_le (T.regular_getElem i.2).stop_le with hlt | htop
  · exact Or.inl hlt
  · exact Or.inr (h.lastPage _ (List.getElem_mem i.2) htop).2

theorem ppn_later {i q : Nat} (hi : i < T.regions.length) (hq : q < T.regions[i].pages) (hq0 : 0 < q) :
    physicAddrToPpnFrom (T.regions[i].page q) T.regions 0 = ((T.base i + q : Nat) : Int) := by
  refine T.ppn_page_pos hi hq hq0 (Nat.lt_of_le_of_ne (T.regular_getElem hi).stop_le fun htop => ?_)
  have hone := (h.lastPage _ (List.getElem_mem hi) htop).1
  omega

/-- Every number is that of the first page of the region taking its place, or of a later page of its own region. -/
theorem ppn_cases {i q : Nat} (hi : i < T.regions.length) (hq : q < T.regions[i].pages) :
    ∃ j, ∃ hj : j < T.regions.length, q < T.regions[j].pages ∧
      physicAddrToPpnFrom (T.regions[i].page q) T.regions 0 = ((T.base j + q : Nat) : Int) ∧
      (q = 0 → j = T.place ⟨i, hi⟩) ∧ (0 < q → j = i) := by
  rcases Nat.eq_zero_or_pos q with rfl | hq0
  · exact ⟨_, h.place_lt ⟨i, hi⟩, (T.regular_getElem (h.place_lt ⟨i, hi⟩)).pages_pos, h.ppn_first ⟨i, hi⟩,
      fun _ => rfl, fun h0 => absurd h0 (Nat.lt_irrefl 0)⟩
  · exact ⟨i, hi, hq, h.ppn_later hi hq hq0, fun h0 => absurd h0 (Nat.pos_iff_ne_zero.1 hq0), fun _ => rfl⟩

theorem ppn_inj {i j q r : Nat} (hi : i < T.regions.length) (hj : j < T.regions.length) (hq : q < T.regions[i].pages)
    (hr : r < T.regions[j].pages)
    (he : physicAddrToPpnFrom (T.regions[i].page q) T.regions 0 =
      physicAddrToPpnFrom (T.regions[j].page r) T.regions 0) : T.regions[i].page q = T.regions[j].page r := by
  obtain ⟨i', hi', hq', hnum, hfirst, hlater⟩ := h.ppn_cases hi hq
  obtain ⟨j', hj', hr', hnum', hfirst', hlater'⟩ := h.ppn_cases hj hr
  rw [hnum, hnum', Int.natCast_inj] at he
  obtain ⟨hplace, rfl⟩ := Blocks.block_unique hi' hj' hq' hr' he
  have hij : i = j := by
    rcases Nat.eq_zero_or_pos q with rfl | hq0
    · have hsame : T.place ⟨i, hi⟩ = T.place ⟨j, hj⟩ := (hfirst rfl).symm.trans (hplace.trans (hfirst' rfl))
      exact congrArg Fin.val (h.place_inj hsame)
    · exact (hlater hq0).symm.trans (hplace.trans (hlater' hq0))
  subst hij
  rfl

theorem exists_ppn {n : Nat} (hn : n < RamTable.totalPages T.regions) :
    ∃ a, T.Has a ∧ physicAddrToPpn T.regions a = n := by
  obtain ⟨j, hj, q, hq, rfl⟩ := Blocks.exists_block hn
  have hppn : ∀ i q, ∀ hi : i < T.regions.length, q < T.regions[i].pages →
      physicAddrToPpnFrom (T.regions[i].page q) T.regions 0 = ((T.base j + q : Nat) : Int) →
      ∃ a, T.Has a ∧ physicAddrToPpn T.regions a = ((T.base j + q : Nat) : Int) := fun i q hi hq he =>
    ⟨_, T.has_page hi hq, by rw [physicAddrToPpn, T.maskOffset_page hi, he]⟩
  rcases Nat.eq_zero_or_pos q with rfl | hq0
  · -- the places are all taken, since no two regions take the same one
    have hsurj : Function.Surjective (fun i => (⟨T.place i, h.place_lt i⟩ : Fin T.regions.length)) :=
      Finite.surjective_of_injective fun a b hab => h.place_inj (congrArg Fin.val hab)
    obtain ⟨i, hi⟩ := hsurj ⟨j, hj⟩
    have hplace : T.place i = j := congrArg Fin.val hi
    exact hppn i 0 i.2 (T.regular_getElem i.2).pages_pos (by rw [← hplace]; exact h.ppn_first i)
  · exact hppn j q hj hq (h.ppn_later hj hq hq0)

theorem numbersRam : NumbersRam T := by
  refine ⟨fun a _ ha => ?_, fun a b _ _ hab => ?_, fun a b ha hb hab he => hab ?_, fun v => ⟨?_, ?_⟩⟩
  · exact physicAddrToPpnFrom_none T.regular fun r hr => h.not_answers ha hr
  · rw [physicAddrToPpn, physicAddrToPpn, maskOffset_eq, maskOffset_eq, hab]
  · obtain ⟨i, hi, q, hq, hpage⟩ := T.exists_page ha
    obtain ⟨j, hj, r, hr, hpage'⟩ := T.exists_page hb
    rw [physicAddrToPpn, physicAddrToPpn, hpage, hpage'] at he
    have hsame := h.ppn_inj hi hj hq hr he
    rw [← hpage, ← hpage', maskOffset_eq, maskOffset_eq] at hsame
    omega
  · rintro ⟨a, ha, rfl⟩
    obtain ⟨i, hi, q, hq, hpage⟩ := T.exists_page ha
    obtain ⟨j, hj, hq', hnum, -⟩ := h.ppn_cases hi hq
    rw [physicAddrToPpn, hpage, hnum]
    exact ⟨Int.natCast_nonneg _, Int.ofNat_lt.2 (T.base_add_lt hj hq')⟩
  · rintro ⟨h0, hlt⟩
    obtain ⟨n, rfl⟩ := Int.eq_ofNat_of_zero_le h0
    exact h.exists_ppn (Int.ofNat_lt.1 hlt)

/-- A table with a region has one that ends at `2 ^ 32`. -/
theorem not_belowTop (hne : T.regions ≠ []) : ¬ T.BelowTop := by
  intro hbelow
  obtain ⟨r, hr, hmax⟩ := T.regions.toFinset.exists_max_image RamDescriptor.stop
    (List.toFinset_nonempty_iff _ |>.2 hne)
  rw [List.mem_toFinset] at hr
  rcases h.noGap r hr with htop | ⟨x, hx, hbegin⟩
  · exact Nat.ne_of_lt (hbelow r hr) htop
  · have hle := hmax x (List.mem_toFinset.2 hx)
    have hpos := (T.regular x hx).nonempty
    rw [RamDescriptor.stop, hbegin] at hle
    omega

end InPlace

/-- **The numbering is exact only for tables that fill the end of the address space** and whose places work out. -/
theorem numbersRam_iff (T : RamTable) : NumbersRam T ↔ InPlace T := ⟨NumbersRam.inPlace, InPlace.numbersRam⟩

end Exact

/-- The region at `0x80001000` begins where the first one ends, and is asked last. -/
def mergedRegions : RamTable where
  regions := [⟨0x80000000, 0x1000⟩, ⟨0x90000000, 0x1000⟩, ⟨0x80001000, 0x1000⟩]
  regular := by decide
  disjoint := by decide

/-- The address just past a region has a number, and two pages share one. -/
theorem numbering_not_exact :
    (¬ commentRegions.Has 0x20000 ∧ physicAddrToPpn commentRegions.regions 0x20000 = 16 ∧
      ¬ NumbersRam commentRegions) ∧
    physicAddrToPpn mergedRegions.regions 0x90000000 = 1 ∧ physicAddrToPpn mergedRegions.regions 0x80001000 = 1 ∧
      ¬ NumbersRam mergedRegions := by
  refine ⟨⟨by decide, by decide, fun h => ?_⟩, by decide, by decide, fun h => ?_⟩
  · exact absurd (h.outside 0x20000 (by decide) (by decide)) (by decide)
  · exact h.distinct 0x90000000 0x80001000 (by decide) (by decide) (by decide) (by decide)

/-- The last two pages of the address space, as two regions in order. -/
def lastTwoPages : RamTable where
  regions := [⟨0xffffe000, 0x1000⟩, ⟨0xfffff000, 0x1000⟩]
  regular := by decide
  disjoint := by decide

example : InPlace lastTwoPages := ⟨by decide, by decide, by decide, by decide⟩

/-! ## The pages of a range -/

/-- Page `q` of region `i` has number `base i + q`: its bit is set if it was, or if the page meets the range. -/
def BorrowsExactly (T : RamTable) (i : Fin T.regions.length) (a len : Nat) : Prop :=
  ∀ (ndebug : Bool) (s : BitmapState 32), RamTable.totalPages T.regions ≤ s.capacity →
    ∃ s', pmmBorrowPages ndebug T.regions s a len = .ok s' ∧
      ∀ k, k ∈ s'.used ↔ k ∈ s.used ∨ ∃ q < T.regions[i].pages, k = T.base i + q ∧
        ¬ Disjoint (pageSpan (T.regions[i].page q)) (Set.Ico a (a + len))

/-- The address is not in the first page of a region whose lower neighbour stands before it in the table, but not
directly before it. -/
def StartsRight (T : RamTable) (i : Fin T.regions.length) (a : Nat) : Prop :=
  a / 4096 * 4096 = T.regions[i].physicaddr →
    ∀ j : Fin T.regions.length, T.regions[j].stop = T.regions[i].physicaddr → j < i → j.1 + 1 = i

/-- The range meets no more pages than its length has. -/
def NoStraddle (a len : Nat) : Prop := a % 4096 + (len - 1) % 4096 < 4096

theorem noStraddle_iff {a len : Nat} (hlen : 0 < len) :
    NoStraddle a len ↔ (len + 4095) / 4096 = (a % 4096 + len + 4095) / 4096 := by
  unfold NoStraddle
  omega

/-- A bitmap that has every page and nothing in use. -/
def clearBitmap : BitmapState 32 := ⟨⟨2 ^ 15, 2 ^ 20, 0, 0⟩, fun _ => 0⟩

theorem capacity_clearBitmap : clearBitmap.capacity = 2 ^ 20 := rfl

theorem notMem_used_clearBitmap (k : Nat) : k ∉ clearBitmap.used := by
  intro hk
  have hbit := (BitmapState.mem_used.1 hk).2
  rw [BitmapState.bit, BitmapState.word, clearBitmap] at hbit
  simp at hbit

theorem spans_eq {cap n m c c' : Nat} (hc : 0 < c') (hle : c ≤ c')
    (h : ∀ k, (k < cap ∧ n ≤ k ∧ k < n + c) ↔ (m ≤ k ∧ k < m + c')) : n = m ∧ c = c' := by
  have hfirst := (h m).2 ⟨Nat.le_refl _, by omega⟩
  have hlast := (h (m + c' - 1)).2 ⟨by omega, by omega⟩
  have hstart := (h n).1 ⟨by omega, Nat.le_refl _, by omega⟩
  omega

section Borrow

variable {T : RamTable} (i : Fin T.regions.length) {a len : Nat}

theorem used_pmmBorrowPages {number : Nat} (hppn : physicAddrToPpn T.regions a = number) (hlen : len < 2 ^ 32)
    (hnumber : number ≤ RamTable.totalPages T.regions) (ndebug : Bool) (s : BitmapState 32) :
    ∃ s', pmmBorrowPages ndebug T.regions s a len = .ok s' ∧
      ∀ k, k ∈ s'.used ↔ k ∈ s.used ∨ k < s.capacity ∧ number ≤ k ∧ k < number + (len + 4095) / 4096 := by
  have hle := T.totalPages_le
  have hassert : (ndebug || physicAddrToPpn T.regions a != -1) = true := by
    rw [hppn, Bool.or_eq_true, bne_iff_ne]
    exact Or.inr (by omega)
  refine ⟨_, by rw [pmmBorrowPages_eq, if_pos hassert], fun k => ?_⟩
  rw [used_bitmapMarkAsUsed, Finset.mem_union, Finset.mem_filter, Finset.mem_range, hppn, pagesToBorrow_eq,
    toUint32_natCast (by omega), wrap32_of_lt (by omega)]

/-- The pages that meet the range are numbered without a gap. -/
theorem exists_meeting_page_iff (hlen : 0 < len) (h1 : T.regions[i].physicaddr ≤ a)
    (h2 : a + len ≤ T.regions[i].stop) (k : Nat) :
    (∃ q < T.regions[i].pages, k = T.base i + q ∧
        ¬ Disjoint (pageSpan (T.regions[i].page q)) (Set.Ico a (a + len))) ↔
      T.base i + (a - T.regions[i].physicaddr) / 4096 ≤ k ∧
        k < T.base i + (a - T.regions[i].physicaddr) / 4096 + (a % 4096 + len + 4095) / 4096 := by
  have hr : T.regions[i].Regular := T.regular_getElem i.2
  obtain ⟨b, hb⟩ := hr.aligned.1
  have hstop := hr.stop_eq
  constructor
  · rintro ⟨q, -, rfl, hmeets⟩
    obtain ⟨hlo, hhi⟩ := (pageSpan_meets_iff hr h1 hlen).1 hmeets
    omega
  · rintro ⟨hlo, hhi⟩
    refine ⟨k - T.base i, by omega, by omega, (pageSpan_meets_iff hr h1 hlen).2 ⟨by omega, by omega⟩⟩

variable (hT : T.BelowTop)

include hT

theorem place_eq_iff :
    T.place i = i ↔ ∀ j : Fin T.regions.length, T.regions[j].stop = T.regions[i].physicaddr → j < i → j.1 + 1 = i := by
  have htop : T.regions[i].stop ≠ 2 ^ 32 := Nat.ne_of_lt (hT _ (List.getElem_mem i.2))
  constructor
  · intro h j hj hji
    rw [T.place_of_adjoins i.2 j.2 hj, if_pos (Or.inl (show j.1 < i.1 from hji))] at h
    exact h
  · intro h
    by_cases hadj : ∃ r ∈ T.regions, r.stop = T.regions[i].physicaddr
    · obtain ⟨r, hr, hstop⟩ := hadj
      obtain ⟨j, hj, rfl⟩ := List.mem_iff_getElem.1 hr
      rw [T.place_of_adjoins i.2 hj hstop]
      split
      case isTrue hor => exact h ⟨j, hj⟩ hstop (hor.resolve_right htop)
      case isFalse => rfl
    · exact T.place_of_not_adjoins i.2 fun r hr hstop => hadj ⟨r, hr, hstop⟩

/-- The number the code counts from is that of the page of `a` exactly when the range starts right. -/
theorem exists_first_number (h1 : T.regions[i].physicaddr ≤ a) (h2 : a < T.regions[i].stop) :
    ∃ number : Nat, physicAddrToPpn T.regions a = number ∧ number ≤ RamTable.totalPages T.regions ∧
      (number = T.base i + (a - T.regions[i].physicaddr) / 4096 ↔ StartsRight T i a) := by
  have hr := T.regular_getElem i.2
  obtain ⟨b, hb⟩ : 4096 ∣ T.regions[i].physicaddr := hr.aligned.1
  have hstop : T.regions[i].stop = T.regions[i].physicaddr + T.regions[i].pages * 4096 := hr.stop_eq
  have hppn : physicAddrToPpn T.regions a =
      if a / 4096 * 4096 = T.regions[i].physicaddr then (T.base (T.place i) : Int)
      else ((T.base i + (a - T.regions[i].physicaddr) / 4096 : Nat) : Int) :=
    T.physicAddrToPpn_of_inside hT i.2 h1 h2
  by_cases hfirst : a / 4096 * 4096 = T.regions[i].physicaddr
  · have hq : (a - T.regions[i].physicaddr) / 4096 = 0 := by omega
    rw [if_pos hfirst] at hppn
    refine ⟨_, hppn, ?_, ?_⟩
    · rw [← T.base_length]
      exact Blocks.start_le (T.place_le i) (Nat.le_refl _)
    · rw [hq, Nat.add_zero, StartsRight, ← place_eq_iff i hT]
      exact ⟨fun h _ => T.base_inj (T.place_le i) (Nat.le_of_lt i.2) h, fun h => by rw [h hfirst]⟩
  · rw [if_neg hfirst] at hppn
    have hq : (a - T.regions[i].physicaddr) / 4096 < T.regions[i].pages := by omega
    exact ⟨_, hppn, Nat.le_of_lt (T.base_add_lt i.2 hq), iff_of_true rfl fun h => absurd h hfirst⟩

/-- **The pages of a range are marked exactly when it starts right and does not straddle.** -/
theorem pmmBorrowPages_exact_iff (hlen : 0 < len) (h1 : T.regions[i].physicaddr ≤ a)
    (h2 : a + len ≤ T.regions[i].stop) : BorrowsExactly T i a len ↔ StartsRight T i a ∧ NoStraddle a len := by
  have hlt : T.regions[i].stop < 2 ^ 32 := hT _ (List.getElem_mem i.2)
  have hle := T.totalPages_le
  have hlen' : len < 2 ^ 32 := by omega
  obtain ⟨number, hppn, hnumber, hstart⟩ := exists_first_number i hT h1 (by omega)
  rw [← hstart, noStraddle_iff hlen]
  have hpages := exists_meeting_page_iff i hlen h1 h2
  have hbound : T.base i + (a - T.regions[i].physicaddr) / 4096 + (a % 4096 + len + 4095) / 4096 ≤
      RamTable.totalPages T.regions := by
    obtain ⟨q, hq, hk, -⟩ := (hpages (T.base i + (a - T.regions[i].physicaddr) / 4096 +
      (a % 4096 + len + 4095) / 4096 - 1)).2 ⟨by omega, by omega⟩
    have hin := T.base_add_lt i.2 hq
    omega
  constructor
  · intro h
    -- in a clear bitmap the bits in use are those the call sets
    obtain ⟨s', hs', hused'⟩ := h false clearBitmap hle
    obtain ⟨t, ht, hused⟩ := used_pmmBorrowPages hppn hlen' hnumber false clearBitmap
    obtain rfl : s' = t := Except.ok.inj (hs'.symm.trans ht)
    refine @spans_eq (2 ^ 20) _ _ _ _ (by omega) (by omega) fun k => ?_
    have hk := (hused k).symm.trans (hused' k)
    rwa [hpages, or_iff_right (notMem_used_clearBitmap k), or_iff_right (notMem_used_clearBitmap k),
      capacity_clearBitmap] at hk
  · rintro ⟨rfl, hcount⟩ ndebug s hcap
    obtain ⟨s', hs', hused⟩ := used_pmmBorrowPages hppn hlen' hnumber ndebug s
    refine ⟨s', hs', fun k => ?_⟩
    rw [hused k, hpages k, hcount]
    exact or_congr_right ⟨fun ⟨_, hlo, hhi⟩ => ⟨hlo, hhi⟩,
      fun ⟨hlo, hhi⟩ => ⟨Nat.lt_of_lt_of_le hhi (Nat.le_trans hbound hcap), hlo, hhi⟩⟩

end Borrow

/-- A number that a page meeting the range has and the code does not mark. -/
theorem not_borrowsExactly {T : RamTable} {i : Fin T.regions.length} {a len number k q : Nat}
    (hppn : physicAddrToPpn T.regions a = number) (hlen : len < 2 ^ 32)
    (hnumber : number ≤ RamTable.totalPages T.regions) (hq : q < T.regions[i].pages) (hk : k = T.base i + q)
    (hmeets : ¬ Disjoint (pageSpan (T.regions[i].page q)) (Set.Ico a (a + len)))
    (hout : ¬ (number ≤ k ∧ k < number + (len + 4095) / 4096)) : ¬ BorrowsExactly T i a len := by
  intro h
  obtain ⟨s', hs', hused'⟩ := h false clearBitmap T.totalPages_le
  obtain ⟨t, ht, hused⟩ := used_pmmBorrowPages hppn hlen hnumber false clearBitmap
  obtain rfl : s' = t := Except.ok.inj (hs'.symm.trans ht)
  rcases (hused k).1 ((hused' k).2 (Or.inr ⟨q, hq, hk, hmeets⟩)) with hclear | ⟨-, hin⟩
  · exact notMem_used_clearBitmap k hclear
  · exact hout hin

theorem twoRegions_belowTop : twoRegions.BelowTop := by decide

/-- 8 bytes across the end of the first page of the second region. -/
theorem pmmBorrowPages_exact_iff_twoRegions :
    BorrowsExactly twoRegions ⟨1, by decide⟩ 0x90000ffc 8 ↔
      StartsRight twoRegions ⟨1, by decide⟩ 0x90000ffc ∧ NoStraddle 0x90000ffc 8 :=
  pmmBorrowPages_exact_iff ⟨1, by decide⟩ twoRegions_belowTop (show 0 < 8 by decide) (by decide) (by decide)

/-- Two bytes on each side of a page boundary mark one page; the first page of a region that stands two places after
its lower neighbour marks another region's. -/
theorem borrowed_pages_unmarked :
    ¬ BorrowsExactly twoRegions ⟨0, by decide⟩ 0x80000ffe 4 ∧
      ¬ BorrowsExactly mergedRegions ⟨2, by decide⟩ 0x80001000 0x1000 := by
  constructor
  · refine @not_borrowsExactly twoRegions ⟨0, by decide⟩ 0x80000ffe 4 0 1 1 (by decide) (by decide) (by decide)
      (by decide) (by decide) ?_ (by decide)
    rw [pageSpan, Spans.disjoint_iff]
    decide
  · refine @not_borrowsExactly mergedRegions ⟨2, by decide⟩ 0x80001000 0x1000 1 2 0 (by decide) (by decide) (by decide)
      (by decide) (by decide) ?_ (by decide)
    rw [pageSpan, Spans.disjoint_iff]
    decide

end RiscvOs

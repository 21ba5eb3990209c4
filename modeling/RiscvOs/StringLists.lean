import RiscvOs.ByteScans
/-!
# The walks over lists of strings (`libfdt/fdt_ro.c`)

`fdt_stringlist_contains` steps from string to string with `memchr`, `fdt_stringlist_count` with `strnlen`.  The first
compares a string with its `NUL`, so it reads one byte too many of a list that ends in the characters of the string
without it; the second cannot tell a list that is cut off.
-/
namespace RiscvOs

open FirstDifference (Agree First)
open Loops (Returns)

/-- The addresses `memcmp` reads through its second pointer. -/
def memcmpReads (m : Bytes) : (p1 p2 n : Nat) → List Nat
  | _, _, 0       => []
  | p1, p2, n + 1 => if m p1 ≠ m p2 then [p2] else p2 :: memcmpReads m (wrap32 (p1 + 1)) (wrap32 (p2 + 1)) n

/-- What is left of the list, and the addresses read from it. -/
structure ListWalk where
  strlist : Nat
  listlen : Int
  walked : List Nat

/-- A round of `fdt_stringlist_contains`, for a string of length `len` at `str`. -/
def containsRound (m : Bytes) (str : Nat) (len : Int) (w : ListWalk) : ListWalk ⊕ (Int × List Nat) :=
  if w.listlen ≥ len then
    let compared := w.walked ++ memcmpReads m str w.strlist (toUint32 (len + 1))
    if memcmp m str w.strlist (toUint32 (len + 1)) = 0 then .inr (1, compared)
    else
      let r := memchr m w.strlist 0 (toUint32 w.listlen)
      match r.1 with
      | none   => .inr (0, compared ++ r.2)
      | some p => .inl ⟨wrap32 (p + 1), w.listlen - (toInt32 (sub32 p w.strlist) + 1), compared ++ r.2⟩
  else .inr (0, w.walked)

/-! ## What a comparison reads -/

section

variable {m : Bytes}

theorem memcmpReads_of_agree : ∀ {n s1 s2 : Nat}, s1 < 2 ^ 32 → s2 < 2 ^ 32 →
    Agree (m.buffer s1) (m.buffer s2) n → memcmpReads m s1 s2 n = byteSpan s2 n
  | 0, _, _, _, _, _ => rfl
  | n + 1, s1, s2, h1, h2, h => by
    obtain ⟨h0, hrest⟩ := FirstDifference.agree_succ_iff.1 h
    rw [buffer_zero m h1, buffer_zero m h2] at h0
    rw [← buffer_next, ← buffer_next] at hrest
    rw [memcmpReads, if_neg (not_not.2 h0), memcmpReads_of_agree (wrap32_lt _) (wrap32_lt _) hrest, byteSpan_succ h2]

theorem memcmpReads_of_first : ∀ {n s1 s2 i : Nat}, s1 < 2 ^ 32 → s2 < 2 ^ 32 → i < n →
    First (m.buffer s1) (m.buffer s2) i → memcmpReads m s1 s2 n = byteSpan s2 (i + 1)
  | n + 1, s1, s2, 0, h1, h2, _, h => by
    have h0 := h.ne
    rw [buffer_zero m h1, buffer_zero m h2] at h0
    rw [memcmpReads, if_pos h0, byteSpan_succ h2]
    rfl
  | n + 1, s1, s2, i + 1, h1, h2, hi, h => by
    have h0 := h.agree 0 (Nat.succ_pos i)
    have hrest := (FirstDifference.first_succ_iff h0).1 h
    rw [buffer_zero m h1, buffer_zero m h2] at h0
    rw [← buffer_next, ← buffer_next] at hrest
    rw [memcmpReads, if_neg (not_not.2 h0),
      memcmpReads_of_first (wrap32_lt _) (wrap32_lt _) (Nat.lt_of_succ_lt_succ hi) hrest, byteSpan_succ h2 (i + 1)]

theorem buffer_add (s k : Nat) : m.buffer (wrap32 (s + k)) = fun i => m.buffer s (k + i) := by
  funext i
  unfold Bytes.buffer wrap32
  rw [Nat.mod_add_mod, Nat.add_assoc]

/-- The bytes from `k` on are inside exactly if they end there. -/
theorem byteSpan_inside_iff {s n k c : Nat} (hk : k ≤ n) (hc : k + c ≤ n + 1) (hn : n < 2 ^ 31) :
    (∀ p ∈ byteSpan (wrap32 (s + k)) c, p ∈ byteSpan s n) ↔ k + c ≤ n := by
  constructor
  · intro h
    by_contra hpast
    have hlast : wrap32 (s + n) ∈ byteSpan (wrap32 (s + k)) c := by
      refine mem_byteSpan.2 ⟨n - k, by omega, ?_⟩
      unfold wrap32
      omega
    obtain ⟨j, hj, heq⟩ := mem_byteSpan.1 (h _ hlast)
    unfold wrap32 at heq
    omega
  · intro hin p hp
    obtain ⟨j, hj, rfl⟩ := mem_byteSpan.1 hp
    refine mem_byteSpan.2 ⟨k + j, by omega, ?_⟩
    unfold wrap32
    omega

end

/-! ## `fdt_stringlist_contains` -/

/-- A string of the list at `s` begins at byte `k`. -/
def Begins (m : Bytes) (s k : Nat) : Prop := k = 0 ∨ m.buffer s (k - 1) = 0

/-- The first `c` bytes from `k` on are those of `str`. -/
def AgreesAt (m : Bytes) (s str k c : Nat) : Prop := Agree (m.buffer str) (fun i => m.buffer s (k + i)) c

/-- The string of length `len` is nowhere in the list, which ends in its characters, with no room for its `NUL`. -/
structure EndsCut (m : Bytes) (s n str len : Nat) : Prop where
  fits : len ≤ n
  begins : Begins m s (n - len)
  agrees : AgreesAt m s str (n - len) len
  fresh : ∀ k < n - len, Begins m s k → ¬ AgreesAt m s str k (len + 1)

/-- The walk has come to the string that begins at `k`, and has passed the string by nowhere. -/
structure WalkAt (m : Bytes) (s n str len k : Nat) (w : ListWalk) : Prop where
  le : k ≤ n
  strlist : w.strlist = wrap32 (s + k)
  listlen : w.listlen = ((n - k : Nat) : Int)
  begins : Begins m s k
  passed : ∀ j < k, Begins m s j → ¬ AgreesAt m s str j (len + 1)
  walked : ∀ p ∈ w.walked, p ∈ byteSpan s n

section

variable {m : Bytes} {s n str len k : Nat}

/-- Before its end the string has no `NUL`, so no string of the list begins among its characters. -/
theorem not_begins_of_agrees (hlen : CString.HasLength (m.buffer str) len) {j : Nat} (h : AgreesAt m s str k len)
    (hk : k < j) (hj : j ≤ k + len) : ¬ Begins m s j := by
  rintro (rfl | h0)
  · exact absurd hk (Nat.not_lt_zero k)
  · have hsame := h (j - 1 - k) (by omega)
    simp only [show k + (j - 1 - k) = j - 1 by omega, h0] at hsame
    have hle : len ≤ j - 1 - k := hlen.2 hsame
    omega

/-- The walk ends where too little is left. -/
theorem not_endsCut_of_short (hlen : CString.HasLength (m.buffer str) len) (hk : k ≤ n) (hbegins : Begins m s k)
    (hshort : n - k < len) : ¬ EndsCut m s n str len := by
  intro h
  have hfits := h.fits
  exact not_begins_of_agrees hlen h.agrees (by omega) (by omega) hbegins

/-- The walk ends in a string that is cut off, and not at the characters of the string. -/
theorem not_endsCut_of_absent (hk : k + len ≤ n) (habsent : ∀ j, k ≤ j → j < n → m.buffer s j ≠ 0)
    (hne : k + len = n → ¬ AgreesAt m s str k len) : ¬ EndsCut m s n str len := by
  intro h
  by_cases hend : k + len = n
  · refine hne hend ?_
    have hagrees := h.agrees
    rwa [show n - len = k by omega] at hagrees
  · cases h.begins with
    | inl h0 => omega
    | inr h0 => exact habsent (n - len - 1) (by omega) (by omega) h0

theorem WalkAt.endsCut {w : ListWalk} (h : WalkAt m s n str len k w) (hend : k + len = n)
    (hagrees : AgreesAt m s str k len) : EndsCut m s n str len := by
  have hstart : n - len = k := by omega
  exact ⟨by omega, hstart ▸ h.begins, hstart ▸ hagrees, hstart ▸ h.passed⟩

theorem WalkAt.reads_iff {w : ListWalk} (h : WalkAt m s n str len k w) (hn : n < 2 ^ 31) {c : Nat}
    (hc : k + c ≤ n + 1) :
    (∀ p ∈ w.walked ++ byteSpan (wrap32 (s + k)) c, p ∈ byteSpan s n) ↔ k + c ≤ n := by
  rw [← byteSpan_inside_iff h.le hc hn]
  constructor
  · exact fun hall p hp => hall p (List.mem_append_right _ hp)
  · intro hall p hp
    cases List.mem_append.1 hp with
    | inl hp => exact h.walked p hp
    | inr hp => exact hall p hp

theorem WalkAt.reads_append_iff {w : ListWalk} (h : WalkAt m s n str len k w) (hn : n < 2 ^ 31) {a b : Nat}
    (ha : k + a ≤ n + 1) (hb : k + b ≤ n) :
    (∀ p ∈ w.walked ++ byteSpan (wrap32 (s + k)) a ++ byteSpan (wrap32 (s + k)) b, p ∈ byteSpan s n) ↔ k + a ≤ n := by
  rw [← h.reads_iff hn ha]
  constructor
  · exact fun hall p hp => hall p (List.mem_append_left _ hp)
  · intro hall p hp
    cases List.mem_append.1 hp with
    | inl hp => exact hall p hp
    | inr hp => exact (byteSpan_inside_iff h.le (by omega) hn).2 hb p hp

theorem next_strlist (s k i : Nat) : wrap32 (wrap32 (wrap32 (s + k) + i) + 1) = wrap32 (s + (k + (i + 1))) := by
  unfold wrap32
  omega

theorem next_listlen {i : Nat} (hi : i < n - k) (hn : n < 2 ^ 31) :
    ((n - k : Nat) : Int) - (toInt32 (sub32 (wrap32 (wrap32 (s + k) + i)) (wrap32 (s + k))) + 1) =
      ((n - (k + (i + 1)) : Nat) : Int) := by
  have hsub : sub32 (wrap32 (wrap32 (s + k) + i)) (wrap32 (s + k)) = i := by
    unfold sub32 wrap32
    omega
  rw [hsub, toInt32_of_lt (by omega)]
  omega

/-- What the comparison of a round comes to, and what it reads. -/
theorem WalkAt.compare {w : ListWalk} (h : WalkAt m s n str len k w) (hstr : str < 2 ^ 32) :
    (AgreesAt m s str k (len + 1) ∧ memcmp m str w.strlist (len + 1) = 0 ∧
        memcmpReads m str w.strlist (len + 1) = byteSpan (wrap32 (s + k)) (len + 1)) ∨
      ∃ d ≤ len, First (m.buffer str) (fun i => m.buffer s (k + i)) d ∧ memcmp m str w.strlist (len + 1) ≠ 0 ∧
        memcmpReads m str w.strlist (len + 1) = byteSpan (wrap32 (s + k)) (d + 1) := by
  have hlist : wrap32 (s + k) < 2 ^ 32 := wrap32_lt _
  rw [h.strlist, Ne, memcmp_eq_zero_iff m hstr hlist]
  rcases FirstDifference.agree_or_first (m.buffer str) (m.buffer (wrap32 (s + k))) (len + 1) with
    hagree | ⟨d, hd, hfirst⟩
  · have hreads := memcmpReads_of_agree hstr hlist hagree
    rw [buffer_add] at hagree ⊢
    exact Or.inl ⟨hagree, hagree, hreads⟩
  · have hreads := memcmpReads_of_first hstr hlist hd hfirst
    rw [buffer_add] at hfirst ⊢
    exact Or.inr ⟨d, Nat.le_of_lt_succ hd, hfirst, hfirst.not_agree hd, hreads⟩

/-- The rest of the list is searched for the end of its first string. -/
theorem memchr_nul_cases (hk : k ≤ n) :
    (∀ j, k ≤ j → j < n → m.buffer s j ≠ 0) ∧
        memchr m (wrap32 (s + k)) 0 (n - k) = (none, byteSpan (wrap32 (s + k)) (n - k)) ∨
      ∃ i < n - k, m.buffer s (k + i) = 0 ∧ (∀ j, k ≤ j → j < k + i → m.buffer s j ≠ 0) ∧
        memchr m (wrap32 (s + k)) 0 (n - k) =
          (some (wrap32 (wrap32 (s + k) + i)), byteSpan (wrap32 (s + k)) (i + 1)) := by
  have hbyte : ∀ j, ((m.buffer (wrap32 (s + k)) j).toNat : Int) = 0 ↔ m.buffer s (k + j) = 0 := by
    intro j
    rw [buffer_add, BitVec.toNat_eq]
    exact Int.natCast_eq_zero
  rcases memchr_cases (m := m) (wrap32_lt (s + k)) (n - k) 0 with ⟨habsent, hrun⟩ | ⟨i, hi, hnul, hbefore, hrun⟩
  · refine Or.inl ⟨fun j hkj hj h0 => ?_, hrun⟩
    have hne := habsent (j - k) (by omega)
    rw [Ne, hbyte, Nat.add_sub_cancel' hkj] at hne
    exact hne h0
  · refine Or.inr ⟨i, hi, (hbyte i).1 hnul, fun j hkj hj h0 => ?_, hrun⟩
    have hne := hbefore (j - k) (by omega)
    rw [Ne, hbyte, Nat.add_sub_cancel' hkj] at hne
    exact hne h0

/-- A string that is not the one looked for is passed by. -/
theorem WalkAt.next {w : ListWalk} (h : WalkAt m s n str len k w) {i : Nat} (hi : i < n - k)
    (hnul : m.buffer s (k + i) = 0) (hbefore : ∀ j, k ≤ j → j < k + i → m.buffer s j ≠ 0)
    (hne : ¬ AgreesAt m s str k (len + 1)) {walked : List Nat} (hwalked : ∀ p ∈ walked, p ∈ byteSpan s n) :
    WalkAt m s n str len (k + (i + 1)) ⟨wrap32 (s + (k + (i + 1))), ((n - (k + (i + 1)) : Nat) : Int), walked⟩ := by
  refine ⟨by omega, rfl, rfl, Or.inr hnul, fun j hj hbegins => ?_, hwalked⟩
  rcases Nat.lt_trichotomy j k with hlt | rfl | hgt
  · exact h.passed j hlt hbegins
  · exact hne
  · cases hbegins with
    | inl h0 => omega
    | inr h0 => exact absurd h0 (hbefore (j - 1) (by omega) (by omega))

/-- **A round** ends the walk, inside the list unless the list is cut off in the string, or moves on. -/
theorem WalkAt.round {w : ListWalk} (h : WalkAt m s n str len k w) (hn : n < 2 ^ 31) (hstr : str < 2 ^ 32)
    (hlen : CString.HasLength (m.buffer str) len) (hint : len < 2 ^ 31) :
    (∃ r, containsRound m str len w = .inr r ∧ ((∀ p ∈ r.2, p ∈ byteSpan s n) ↔ ¬ EndsCut m s n str len)) ∨
      ∃ w', containsRound m str len w = .inl w' ∧ (∃ k', WalkAt m s n str len k' w') ∧
        w'.listlen.toNat < w.listlen.toNat := by
  have hk := h.le
  have hlistlen := h.listlen
  have hsize : toUint32 ((len : Int) + 1) = len + 1 := toUint32_natCast (x := len + 1) (by omega)
  have hcount : toUint32 w.listlen = n - k := by
    rw [hlistlen]
    exact toUint32_natCast (by omega)
  unfold containsRound
  rw [hsize, hcount]
  by_cases hmore : w.listlen ≥ len
  · have hroom : k + len ≤ n := by omega
    rw [if_pos hmore]
    rcases h.compare hstr with ⟨hagree, hzero, hreads⟩ | ⟨d, hd, hfirst, hnonzero, hreads⟩
    · -- the string is found
      rw [hreads, if_pos hzero]
      refine Or.inl ⟨_, rfl, (h.reads_iff hn (by omega)).trans ⟨fun hin hcut => ?_, fun hnot => ?_⟩⟩
      · exact hcut.fresh k (by omega) h.begins hagree
      · by_contra hpast
        exact hnot (h.endsCut (by omega) fun i hi => hagree i (Nat.lt_succ_of_lt hi))
    · have hnot : ¬ AgreesAt m s str k (len + 1) := hfirst.not_agree (Nat.lt_succ_of_le hd)
      rw [hreads, if_neg hnonzero, h.strlist]
      rcases memchr_nul_cases (m := m) (s := s) hk with ⟨habsent, hrun⟩ | ⟨i, hi, hnul, hbefore, hrun⟩
      · -- the last string is cut off
        rw [hrun]
        refine Or.inl ⟨_, rfl, (h.reads_append_iff hn (by omega) (by omega)).trans ⟨fun hin => ?_, fun hcut => ?_⟩⟩
        · exact not_endsCut_of_absent hroom habsent fun hend => hfirst.not_agree (by omega)
        · by_contra hpast
          obtain rfl : d = len := by omega
          exact hcut (h.endsCut (by omega) hfirst.agree)
      · -- the string before this `NUL` is another one
        have hin : k + (d + 1) ≤ n := by
          by_contra hpast
          have hsame := hfirst.agree i (by omega)
          have hle : len ≤ i := hlen.2 (hsame.trans hnul)
          omega
        have hwalked := (h.reads_append_iff hn (by omega) (b := i + 1) (by omega)).2 hin
        have hnext := h.next hi hnul hbefore hnot hwalked
        rw [hrun, hlistlen]
        simp only
        rw [next_strlist, next_listlen hi (by omega)]
        exact Or.inr ⟨_, rfl, ⟨_, hnext⟩, by simp only; omega⟩
  · rw [if_neg hmore]
    exact Or.inl ⟨_, rfl, iff_of_true h.walked (not_endsCut_of_short hlen hk h.begins (by omega))⟩

/-- **The walk ends**, and has read nothing outside the list unless it is cut off in the string. -/
theorem contains_walk (hs : s < 2 ^ 32) (hn : n < 2 ^ 31) (hstr : str < 2 ^ 32)
    (hlen : CString.HasLength (m.buffer str) len) (hint : len < 2 ^ 31) :
    ∃ r, Returns (containsRound m str len) ⟨s, n, []⟩ r ∧
      ((∀ p ∈ r.2, p ∈ byteSpan s n) ↔ ¬ EndsCut m s n str len) := by
  have hstart : WalkAt m s n str len 0 ⟨s, n, []⟩ :=
    ⟨Nat.zero_le n, (wrap32_of_lt hs).symm, rfl, Or.inl rfl, fun j hj => absurd hj (Nat.not_lt_zero j),
      fun p hp => absurd hp List.not_mem_nil⟩
  refine Loops.returns_of_variant (I := fun w => ∃ k, WalkAt m s n str len k w) (fun w => w.listlen.toNat) ?_ _
    ⟨0, hstart⟩
  rintro w ⟨k, hw⟩
  exact hw.round hn hstr hlen hint

/-- `fdt_stringlist_contains` returns, and reads nothing outside the list. -/
def WalkInside (m : Bytes) (s n str len : Nat) : Prop :=
  ∃ r, Returns (containsRound m str len) ⟨s, n, []⟩ r ∧ ∀ p ∈ r.2, p ∈ byteSpan s n

theorem walkInside_iff (hs : s < 2 ^ 32) (hn : n < 2 ^ 31) (hstr : str < 2 ^ 32)
    (hlen : CString.HasLength (m.buffer str) len) (hint : len < 2 ^ 31) :
    WalkInside m s n str len ↔ ¬ EndsCut m s n str len := by
  obtain ⟨r, hr, hiff⟩ := contains_walk hs hn hstr hlen hint
  constructor
  · rintro ⟨r', hr', hin⟩
    rw [← hiff, hr.unique hr']
    exact hin
  · exact fun hcut => ⟨r, hr, hiff.2 hcut⟩

end

/-- **`memchr` finds the first byte exactly when it is given a character**, or there is none to find, and reads no byte
after the one it returns; the walk over a list of strings with it reads nothing outside the list exactly when that is
not cut off in the string. -/
theorem memchr_finds_iff (m : Bytes) (s n : Nat) (ch : Int) (hs : s < 2 ^ 32) :
    (FindsByte m s n ch ↔ (0 ≤ ch ∧ ch < 256) ∨ ∀ i < n, m.buffer s i ≠ BitVec.ofInt 8 ch) ∧
      ∀ str len, n < 2 ^ 31 → str < 2 ^ 32 → CString.HasLength (m.buffer str) len → len < 2 ^ 31 →
        (WalkInside m s n str len ↔ ¬ EndsCut m s n str len) :=
  ⟨findsByte_iff hs, fun _ _ hn hstr hlen hint => walkInside_iff hs hn hstr hlen hint⟩

/-- The byte `ff` at `0x1000`. -/
def lastByte : Bytes := fun a => if a = 0x1000 then 0xff else 0

theorem lastByte_hasLength : CString.HasLength (lastByte.buffer 0x1000) 1 := by
  refine ⟨rfl, fun i hi => Nat.pos_of_ne_zero ?_⟩
  rintro rfl
  exact absurd (show lastByte.buffer 0x1000 0 = 0 from hi) (by decide)

theorem memchr_finds_iff_lastByte :
    (FindsByte lastByte 0x1000 4 0xff ↔
        (0 ≤ (0xff : Int) ∧ (0xff : Int) < 256) ∨ ∀ i < 4, lastByte.buffer 0x1000 i ≠ BitVec.ofInt 8 0xff) ∧
      (WalkInside lastByte 0x1000 4 0x1000 1 ↔ ¬ EndsCut lastByte 0x1000 4 0x1000 1) :=
  ⟨(memchr_finds_iff lastByte 0x1000 4 0xff (by decide)).1,
    (memchr_finds_iff lastByte 0x1000 4 0xff (by decide)).2 0x1000 1 (by decide) (by decide) lastByte_hasLength
      (by decide)⟩

/-- `(unsigned char)-1` is the first byte, and is not found; and a string is compared with a list of its own character
without a `NUL` one byte too far. -/
theorem memchr_misses_negative :
    lastByte.buffer 0x1000 0 = BitVec.ofInt 8 (-1) ∧ (memchr lastByte 0x1000 (-1) 1).1 = none ∧
      ¬ FindsByte lastByte 0x1000 1 (-1) ∧ ¬ WalkInside lastByte 0x1000 1 0x1000 1 := by
  refine ⟨by decide, by decide, fun h => ?_, fun h => ?_⟩
  · have hfound := h.first 0 ⟨⟨by decide, by decide⟩, fun i _ => Nat.zero_le i⟩
    exact absurd hfound (by decide)
  · have hcut : EndsCut lastByte 0x1000 1 0x1000 1 :=
      ⟨Nat.le_refl 1, Or.inl rfl, fun i _ => by simp, fun j hj => absurd hj (Nat.not_lt_zero j)⟩
    exact (walkInside_iff (by decide) (by decide) (by decide) lastByte_hasLength (by decide)).1 h hcut

/-! ## The walk of `fdt_stringlist_count` -/

/-- A round of `fdt_stringlist_count` at `list`, with `count` strings behind it; 15 is `FDT_ERR_BADVALUE`. -/
def countRound (m : Bytes) (stop : Nat) (w : Nat × Int) : (Nat × Int) ⊕ Int :=
  let list := w.1
  let count := w.2
  if list < stop then
    let length := wrap32 ((strnlen m list (sub32 stop list)).1 + 1)
    if wrap32 (list + length) > stop then .inr (-15)
    else .inl (wrap32 (list + length), count + 1)
  else .inr count

/-- **The count of a property's strings ends, and never in an error**: a list without its last `NUL` is counted as if
it had one. -/
theorem countRound_returns (m : Bytes) {list stop : Nat} (hle : list ≤ stop) (hstop : stop < 2 ^ 32) :
    ∃ n, Returns (countRound m stop) (list, 0) n ∧ 0 ≤ n := by
  refine Loops.returns_of_variant (I := fun w => w.1 ≤ stop ∧ 0 ≤ w.2) (fun w => stop - w.1) ?_ _ ⟨hle, Int.le_refl 0⟩
  rintro ⟨here, count⟩ ⟨-, hcount⟩
  unfold countRound
  by_cases hmore : here < stop
  · obtain ⟨hbehind, hin⟩ := strnlen_next (m := m) hstop hmore
    simp only [hmore, if_true, Nat.not_lt.2 hin, if_false]
    exact Or.inr ⟨_, rfl, ⟨hin, Int.add_nonneg hcount (by decide)⟩, Nat.sub_lt_sub_left hmore hbehind⟩
  · simp only [hmore, if_false]
    exact Or.inl ⟨count, rfl, hcount⟩

end RiscvOs
